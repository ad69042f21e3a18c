import Mixfix.Proofs.Calculator.Standard
import Mixfix.Proofs.Parse.Termination

namespace Mixfix

open Calculator SearchM

namespace Calculator

/-- A table whose operators are each read in one of the five forms, and where no operator that
continues an expression at the level of a suffix or looser opens one. -/
structure FiveForms (t : Table Op) : Prop where
  valid : t.Valid
  forms : ∀ e ∈ t.entries, Enclosing (Groups.ofTable t) e ∨ Prefix (Groups.ofTable t) e ∨
    Calculator.Infix (Groups.ofTable t) e ∨ Postfix (Groups.ofTable t) e ∨
      Suffix (Groups.ofTable t) e
  afterSuffix : ∀ e ∈ t.entries, Suffix (Groups.ofTable t) e →
    ∀ q ∈ t.entries, q.startsWithExpression = true → e.priority ≤ q.priority →
      (Groups.ofTable t).opening? q.firstSign = none

theorem standard_fiveForms : FiveForms standard :=
  ⟨standard_valid, forms_standard, opening_after_suffix⟩

end Calculator

namespace Table

variable {ι : Type} [DecidableEq ι] {t : Table ι} {id : ι} {e : Entry ι}

theorem find?_eq_some (h : t.find? id = some e) : e ∈ t.entries ∧ e.operator.id = id :=
  ⟨List.mem_of_find?_eq_some h, by simpa using List.find?_some h⟩

end Table

namespace Tree

variable {ι : Type} [DecidableEq ι] {t : Table ι}

/-- The priority of the operator at the root of a tree; a leaf has none. -/
def rootPriority (t : Table ι) : Tree ι → Option Nat
  | .leaf _ => none
  | .node id _ => (t.find? id).map (·.priority)

theorem rootPriority_node {id : ι} {e : Entry ι} (h : t.find? id = some e) (args : List (Tree ι)) :
    (Tree.node id args).rootPriority t = some e.priority := by
  simp [rootPriority, h]

theorem exists_level (tree : Tree ι) :
    ∃ p, (∀ r ∈ tree.rootPriority t, r ≤ p) ∧ tree.reach t ≤ p := by
  refine ⟨tree.reach t + (tree.rootPriority t).getD 0, fun r hr => ?_, Nat.le_add_right _ _⟩
  rw [Option.mem_def] at hr
  simp [hr]

theorem reach_node {id : ι} {e : Entry ι} (h : t.find? id = some e) {b : Nat}
    (hb : e.bound = some b) (init : List (Tree ι)) (last : Tree ι) :
    (Tree.node id (init ++ [last])).reach t = max b (last.reach t) := by
  rw [reach, h]
  simp [hb, reachLast_append]

end Tree

namespace Entry

variable {ι : Type} [DecidableEq ι] {t : Table ι} {e : Entry ι} {i : Nat} {a : Tree ι}

theorem Admits.leading (h : e.Admits t 0 a) (hs : e.startsWithExpression = true) :
    (∀ r ∈ a.rootPriority t, r ≤ e.priority) ∧ a.reach t ≤ e.priority := by
  cases a with
  | leaf => simp [Tree.rootPriority, Tree.reach]
  | node id args =>
    cases hf : t.find? id with
    | none => simp [Tree.rootPriority, Tree.reach, hf]
    | some child =>
      have hc := h child hf
      simp only [hs, and_self, if_true] at hc
      refine ⟨fun r hr => ?_, hc.2⟩
      rw [Tree.rootPriority_node hf, Option.mem_def, Option.some_inj] at hr
      omega

theorem Admits.trailing (h : e.Admits t i a) (hi : i + 1 = e.arity)
    (hend : e.endsWithExpression = true) (hlead : ¬ (e.startsWithExpression = true ∧ i = 0))
    {b : Nat} (hb : e.bound = some b) : ∀ r ∈ a.rootPriority t, r < b := by
  cases a with
  | leaf => simp [Tree.rootPriority]
  | node id args =>
    intro r hr
    cases hf : t.find? id with
    | none => simp [Tree.rootPriority, hf] at hr
    | some child =>
      have hc := h child hf
      rw [if_neg hlead, if_pos ⟨hi, hend⟩] at hc
      obtain ⟨b', hb', hlt⟩ := hc
      rw [Tree.rootPriority_node hf, Option.mem_def, Option.some_inj] at hr
      rw [hb, Option.some_inj] at hb'
      omega

end Entry

namespace Pending

variable {ι : Type} {q : Pending ι} {p p' : Nat}

theorem closesBefore_anti (h : q.closesBefore p = false) (hle : p' ≤ p) :
    q.closesBefore p' = false := by
  unfold closesBefore at *
  split <;> simp_all
  intro hr
  have := h hr
  omega

end Pending

namespace Calculator

variable {t : Table Op} {e : Entry Op}

theorem yield_enclosing (ht : t.Valid) (he : e ∈ t.entries) (hE : Enclosing (Groups.ofTable t) e)
    (y : Tree Op) :
    (Tree.node e.operator.id [y]).yield t =
      .sign e.firstSign :: (y.yield t ++ [.sign (closer e)]) := by
  obtain ⟨-, hkind, -, hpat, -⟩ := hE
  simp [Tree.yield_node_entry ht he, Entry.layout, hkind, hpat, fillSlots]

theorem yield_prefixed (ht : t.Valid) (he : e ∈ t.entries) (hP : Prefix (Groups.ofTable t) e)
    (y : Tree Op) : (Tree.node e.operator.id [y]).yield t = .sign e.firstSign :: y.yield t := by
  obtain ⟨-, hkind, hassoc, -, hpat, -⟩ := hP
  simp [Tree.yield_node_entry ht he, Entry.layout, hkind, hassoc, hpat, fillSlots]

theorem yield_binary (ht : t.Valid) (he : e ∈ t.entries)
    (hI : Calculator.Infix (Groups.ofTable t) e) (x y : Tree Op) :
    (Tree.node e.operator.id [x, y]).yield t = x.yield t ++ .sign e.firstSign :: y.yield t := by
  obtain ⟨-, hkind, -, -, -, ⟨hassoc, -, hpat⟩ | ⟨hassoc, -, hpat⟩, -⟩ := hI <;>
  simp [Tree.yield_node_entry ht he, Entry.layout, hkind, hassoc, hpat, fillSlots]

theorem yield_call (ht : t.Valid) (he : e ∈ t.entries) (hP : Postfix (Groups.ofTable t) e)
    (x y : Tree Op) :
    (Tree.node e.operator.id [x, y]).yield t =
      x.yield t ++ .sign e.firstSign :: (y.yield t ++ [.sign (closer e)]) := by
  obtain ⟨-, hkind, hassoc, -, hpat, -⟩ := hP
  simp [Tree.yield_node_entry ht he, Entry.layout, hkind, hassoc, hpat, fillSlots]

theorem yield_suffix (ht : t.Valid) (he : e ∈ t.entries) (hS : Suffix (Groups.ofTable t) e)
    (x : Tree Op) : (Tree.node e.operator.id [x]).yield t = x.yield t ++ [.sign e.firstSign] := by
  obtain ⟨-, hkind, hassoc, -, hpat, -⟩ := hS
  simp [Tree.yield_node_entry ht he, Entry.layout, hkind, hassoc, hpat, fillSlots]

end Calculator

namespace Parser

variable {ι : Type} {g : Groups ι} {tokens : Array Token} {env e e' : Env ι}

theorem Leads.of_step {p : List (Branch ι)} (hs : Returns (env.step g tokens) (.next e) p)
    (hc : e.cursor = env.cursor + 1) (hlt : env.cursor < tokens.size) : Leads g tokens env e :=
  fun _ h => Accepts.of_next hs hc hlt h

theorem Leads.of_retry {b : Branch ι} {f : SyntaxFault}
    (hs : Returns (env.step g tokens) (.next e) [b]) (hf : Returns (e.step g tokens) (.fail f) [])
    (hb : Returns (b.env.enter b.entry) e' []) (hc : e'.cursor = env.cursor + 1)
    (hlt : env.cursor < tokens.size) : Leads g tokens env e' :=
  fun _ h => Accepts.of_retry hs hf hb hc hlt h

theorem Leads.of_eq (h : Leads g tokens env e) (he : e = e') : Leads g tokens env e' :=
  he ▸ h

theorem drop_after {vals : List TokenValue} {c : Nat} {A B : List TokenValue}
    (h : vals.drop c = A ++ B) : vals.drop (c + A.length) = B := by
  rw [← List.drop_drop, h, List.drop_left]

theorem step_stuck_of_drop {c : Nat} {rest : List TokenValue}
    (hdrop : (tokens.toList.map (·.value)).drop c = rest)
    (hrest : ∀ v ∈ rest.head?, ∃ s, v = .sign s ∧ g.opening? s = none) :
    tokens[c]? = none ∨
      ∃ tok s, tokens[c]? = some tok ∧ tok.value = .sign s ∧ g.opening? s = none := by
  cases rest with
  | nil => exact .inl (token_none_of_drop hdrop)
  | cons v rest =>
    obtain ⟨tok, htok, hval, -, -⟩ := token_of_drop hdrop
    obtain ⟨s, rfl, hs⟩ := hrest v rfl
    exact .inr ⟨tok, s, htok, hval, hs⟩

end Parser

namespace Unreduced

variable {ι : Type} [DecidableEq ι] {t : Table ι} {g : Groups ι} {tokens : Array Token}
  {x : Tree ι} {ps : List (Pending ι)} {os : List (Tree ι)} {P : List (Pending ι)}
  {O : List (Tree ι)} {c : Nat} {e : Entry ι} {y : Env ι}

theorem enter (h : Unreduced t x ps os) (hr : x.reach t ≤ e.priority)
    (hP : ∀ q ∈ P.head?, q.closesBefore e.priority = false)
    (ha : Returns (Env.advance ⟨c + 1, x :: O, ⟨e, e.lead + 1⟩ :: P, .afterOperand⟩) y []) :
    Returns ((⟨c, os ++ O, ps ++ P, .afterOperand⟩ : Env ι).enter e) y [] := by
  rw [Env.enter_of_afterOperand rfl]
  exact (h.unwind hr hP rfl rfl).then ha

theorem step_into {tok : Token} {s : String} {rest : List (Entry ι)} (h : Unreduced t x ps os)
    (hv : t.Valid) (htok : tokens[c]? = some tok) (hval : tok.value = .sign s)
    (hob : ∀ d, obligation P ≠ some (d, s)) (hg : g.continuing? s = some (e :: rest))
    (hr : x.reach t ≤ e.priority) (hP : ∀ q ∈ P.head?, q.closesBefore e.priority = false)
    (ha : Returns (Env.advance ⟨c + 1, x :: O, ⟨e, e.lead + 1⟩ :: P, .afterOperand⟩) y []) :
    Returns ((⟨c, os ++ O, ps ++ P, .afterOperand⟩ : Env ι).step g tokens) (.next y)
      (rest.map (⟨⟨c, os ++ O, ps ++ P, .afterOperand⟩, ·⟩)) := by
  refine Env.step_continue rfl htok hval (fun d hd => ?_) hg (h.enter hr hP ha)
  rw [obligation_append (h.slotSign hv)] at hd
  obtain ⟨⟨d', s'⟩, hd', hds⟩ := Option.map_eq_some_iff.mp hd
  cases hds
  exact hob d' hd'

end Unreduced

namespace Env

variable {ι : Type} {c : Nat} {y : Tree ι} {init : List (Tree ι)} {O : List (Tree ι)}
  {P : List (Pending ι)} {m : Mode}

theorem advance_at_hole {o : List (Tree ι)} {e : Entry ι} {k : Nat} {a : Option String}
    (hk : k < e.restEnd) (hh : e.operator.pattern[k]? = some (.hole a)) :
    SearchM.Returns (Env.advance ⟨c, o, ⟨e, k⟩ :: P, m⟩)
      ⟨c, o, ⟨e, k + 1⟩ :: P, .expectOperand⟩ [] :=
  @advance_hole ι ⟨c, o, ⟨e, k⟩ :: P, m⟩ ⟨e, k⟩ P rfl hk a hh

theorem advance_builds {e : Entry ι} {k : Nat} (hk : e.restEnd ≤ k) (hb : e.bound = none)
    (hn : init.length + 1 = e.arity) :
    SearchM.Returns (Env.advance ⟨c, y :: (init.reverse ++ O), ⟨e, k⟩ :: P, m⟩)
      ⟨c, .node e.operator.id (init ++ [y]) :: O, P, .afterOperand⟩ [] := by
  have h := @advance_complete ι ⟨c, y :: (init.reverse ++ O), ⟨e, k⟩ :: P, m⟩ ⟨e, k⟩ P rfl hk hb
    (by simp; omega)
  have htake : (y :: (init.reverse ++ O)).take e.arity = y :: init.reverse := by
    rw [← hn, List.take_succ_cons, List.take_left' (by simp)]
  have hdrop : (y :: (init.reverse ++ O)).drop e.arity = O := by
    rw [← hn, List.drop_succ_cons, List.drop_left' (by simp)]
  simp only [htake, hdrop, List.reverse_cons, List.reverse_reverse] at h
  exact h

end Env

namespace Parser

variable {t : Table Op} {tokens : Array Token}

/-- The tokens that may follow a tree read under level `p`: the end of the input, or a sign that
opens no expression where a suffix lies at `p` or below. -/
def Follows (t : Table Op) (p : Nat) (rest : List TokenValue) : Prop :=
  ∀ v ∈ rest.head?, ∃ s, v = .sign s ∧
    ∀ e ∈ t.entries, Suffix (Groups.ofTable t) e → e.priority ≤ p →
      (Groups.ofTable t).opening? s = none

/-- No pending operator waits for a sign that continues an expression. -/
def WaitsApart (t : Table Op) (pending : List (Pending Op)) : Prop :=
  ∀ d s, obligation pending = some (d, s) → (Groups.ofTable t).continuing? s = none

/-- What the search does with a tree at the cursor of a line that expects an operand. Whatever
the line holds below, if its innermost pending operator lets the tree's root in, the sign it
waits for continues no expression, and the token after the tree is one that `Follows` admits at a
level above the tree's root and reach, then the line leads to one that has read the tree, the
operators of its right spine that take a trailing operand still pending. -/
def Reads (t : Table Op) (tokens : Array Token) (tree : Tree Op) : Prop :=
  ∀ (env : Env Op) (rest : List TokenValue) (p : Nat), env.mode = .expectOperand →
    (tokens.toList.map (·.value)).drop env.cursor = tree.yield t ++ rest →
    (∀ r ∈ tree.rootPriority t, r ≤ p ∧ ∀ q ∈ env.pending.head?, q.closesBefore r = false) →
    tree.reach t ≤ p → WaitsApart t env.pending → Follows t p rest →
    ∃ ps os, Unreduced t tree ps os ∧ Leads (Groups.ofTable t) tokens env
      ⟨env.cursor + (tree.yield t).length, os ++ env.operands, ps ++ env.pending, .afterOperand⟩

theorem WaitsApart.cons_none {q : Pending Op} {P : List (Pending Op)} (h : WaitsApart t P)
    (hq : q.slotSign = none) : WaitsApart t (q :: P) := by
  intro d s hd
  rw [obligation, hq] at hd
  obtain ⟨⟨d', s'⟩, hd', hds⟩ := Option.map_eq_some_iff.mp hd
  cases hds
  exact h d' s hd'

theorem WaitsApart.cons_sign {q : Pending Op} {P : List (Pending Op)} {s : String}
    (hq : q.slotSign = some s) (hs : (Groups.ofTable t).continuing? s = none) :
    WaitsApart t (q :: P) := by
  intro d s' hd
  rw [obligation, hq] at hd
  cases hd
  exact hs

theorem WaitsApart.not_waiting {P : List (Pending Op)} {s : String} {g : List (Entry Op)}
    (h : WaitsApart t P) (hg : (Groups.ofTable t).continuing? s = some g) :
    ∀ d, obligation P ≠ some (d, s) := by
  intro d hd
  rw [h d s hd] at hg
  cases hg

theorem follows_lead (ht : FiveForms t) {e : Entry Op} (he : e ∈ t.entries)
    (hs : e.startsWithExpression = true) (rest : List TokenValue) :
    Follows t e.priority (.sign e.firstSign :: rest) := by
  intro v hv
  refine ⟨e.firstSign, (Option.some_inj.mp hv).symm, fun es hes hS hle => ?_⟩
  exact ht.afterSuffix es hes hS e he hs hle

theorem follows_closing {s : String} (hs : (Groups.ofTable t).opening? s = none) (p : Nat)
    (rest : List TokenValue) : Follows t p (.sign s :: rest) :=
  fun _ hv => ⟨s, (Option.some_inj.mp hv).symm, fun _ _ _ _ => hs⟩

theorem reads_leaf (lit : Literal) : Reads t tokens (.leaf lit) := by
  intro env rest p hm hdrop _ _ _ _
  obtain ⟨tok, htok, hval, hlt, -⟩ := token_of_drop hdrop
  exact ⟨[], [.leaf lit], .whole _, Leads.of_step (Env.step_literal hm htok hval) rfl hlt⟩

variable (ht : FiveForms t)
include ht

theorem Reads.middle {y : Tree Op} (hy : Reads t tokens y) {e : Entry Op}
    (hpat : e.operator.pattern[2]? = some (.sign (closer e))) (hrest : e.restEnd = 3)
    (hb : e.bound = none) (hopen : (Groups.ofTable t).opening? (closer e) = none)
    (hcont : (Groups.ofTable t).continuing? (closer e) = none) (init : List (Tree Op))
    (hn : init.length + 1 = e.arity) {c : Nat} {O : List (Tree Op)} {P : List (Pending Op)}
    {rest : List TokenValue}
    (hdrop : (tokens.toList.map (·.value)).drop c = y.yield t ++ .sign (closer e) :: rest) :
    Leads (Groups.ofTable t) tokens ⟨c, init.reverse ++ O, ⟨e, 2⟩ :: P, .expectOperand⟩
      ⟨c + (y.yield t).length + 1, .node e.operator.id (init ++ [y]) :: O, P, .afterOperand⟩ := by
  have hslot : (⟨e, 2⟩ : Pending Op).slotSign = some (closer e) := by
    simp [Pending.slotSign, hpat, Slot.sign?]
  obtain ⟨p, hroot, hreach⟩ := y.exists_level (t := t)
  obtain ⟨ps, os, huy, hly⟩ := hy ⟨c, init.reverse ++ O, ⟨e, 2⟩ :: P, .expectOperand⟩
    (.sign (closer e) :: rest) p rfl hdrop
    (fun r hr => ⟨hroot r hr, by simp [Pending.closesBefore, hb]⟩) hreach
    (WaitsApart.cons_sign hslot hcont) (follows_closing hopen p rest)
  obtain ⟨tok, htok, hval, hlt, -⟩ := token_of_drop (drop_after hdrop)
  have hob : obligation (ps ++ ⟨e, 2⟩ :: P) = some (ps.length, closer e) := by
    rw [obligation_append (huy.slotSign ht.valid), obligation, hslot]
    simp
  have hred : Returns (Env.reduceTimes ps.length
      ⟨c + (y.yield t).length, os ++ (init.reverse ++ O), ps ++ ⟨e, 2⟩ :: P, .afterOperand⟩)
      ⟨c + (y.yield t).length, y :: (init.reverse ++ O), ⟨e, 2⟩ :: P, .afterOperand⟩ [] :=
    huy.reduceTimes rfl rfl
  have hcons : Returns (Env.consume
      ⟨c + (y.yield t).length, y :: (init.reverse ++ O), ⟨e, 2⟩ :: P, .afterOperand⟩)
      ⟨c + (y.yield t).length + 1, .node e.operator.id (init ++ [y]) :: O, P, .afterOperand⟩
      [] := by
    rw [Env.consume_eq rfl]
    exact Env.advance_builds (by simp [hrest]) hb hn
  exact hly.trans (Leads.of_step (Env.step_close rfl htok hval hob hred hcons) rfl hlt)

theorem Reads.trailing {y : Tree Op} (hy : Reads t tokens y) {e : Entry Op}
    (hf : t.find? e.operator.id = some e) {b : Nat} (hb : e.bound = some b)
    (init : List (Tree Op)) (hn : init.length + 1 = e.arity) {c p : Nat} {O : List (Tree Op)}
    {P : List (Pending Op)} {rest : List TokenValue}
    (hdrop : (tokens.toList.map (·.value)).drop c = y.yield t ++ rest)
    (hroot : ∀ r ∈ y.rootPriority t, r < b) (hbp : b ≤ p) (hreach : y.reach t ≤ p)
    (hw : WaitsApart t P) (hfol : Follows t p rest) :
    ∃ ps os, Unreduced t (.node e.operator.id (init ++ [y])) ps os ∧
      Leads (Groups.ofTable t) tokens ⟨c, init.reverse ++ O, ⟨e, e.restEnd⟩ :: P, .expectOperand⟩
        ⟨c + (y.yield t).length, os ++ O, ps ++ P, .afterOperand⟩ := by
  have hslot : (⟨e, e.restEnd⟩ : Pending Op).slotSign = none :=
    Pending.Trailing.slotSign_eq_none (ht.valid.entries _ (List.mem_of_find?_eq_some hf))
      ⟨rfl, by simp [hb]⟩
  obtain ⟨ps, os, huy, hly⟩ := hy ⟨c, init.reverse ++ O, ⟨e, e.restEnd⟩ :: P, .expectOperand⟩
    rest p rfl hdrop
    (fun r hr => ⟨(hroot r hr).le.trans hbp, by
      have := hroot r hr
      simp [Pending.closesBefore, hb]
      omega⟩)
    hreach (hw.cons_none hslot) hfol
  refine ⟨ps ++ [⟨e, e.restEnd⟩], os ++ init.reverse, .trailing hf hb hn huy, hly.of_eq ?_⟩
  simp

theorem reads_enclosing {e : Entry Op} (he : e ∈ t.entries) (hE : Enclosing (Groups.ofTable t) e)
    {y : Tree Op} (hy : Reads t tokens y) : Reads t tokens (.node e.operator.id [y]) := by
  intro env rest p hm hdrop _ _ _ _
  rw [yield_enclosing ht.valid he hE] at hdrop ⊢
  obtain ⟨-, -, hlead, hpat, hrest, hb, har, hopen, hcopen, hccont⟩ := hE
  rw [List.cons_append, List.append_assoc, List.singleton_append] at hdrop
  obtain ⟨tok, htok, hval, hlt, hdrop'⟩ := token_of_drop hdrop
  have hent : Returns (env.enter e)
      ⟨env.cursor + 1, env.operands, ⟨e, 2⟩ :: env.pending, .expectOperand⟩ [] := by
    rw [Env.enter_of_ne (by rw [hm]; decide) e, hlead]
    exact Env.advance_at_hole (by simp [hrest]) (by rw [hpat]; rfl)
  have hmid := Reads.middle ht hy (by rw [hpat]; rfl) hrest hb hcopen hccont []
    (O := env.operands) (P := env.pending) (by simp [har]) hdrop'
  refine ⟨[], [_], .whole _, ?_⟩
  exact ((Leads.of_step (Env.step_open hm htok hval hopen hent) rfl hlt).trans hmid).of_eq
    (by simp; omega)

theorem reads_prefixed {e : Entry Op} (he : e ∈ t.entries) (hP : Prefix (Groups.ofTable t) e)
    {y : Tree Op} (hy : Reads t tokens y) (hay : e.Admits t 0 y) :
    Reads t tokens (.node e.operator.id [y]) := by
  intro env rest p hm hdrop hroot hreach hw hfol
  have hf := ht.valid.find?_entry he
  rw [yield_prefixed ht.valid he hP] at hdrop ⊢
  obtain ⟨hs, -, -, hlead, -, hrest, hbs, har, hopen⟩ := hP
  obtain ⟨b, hb⟩ := Option.isSome_iff_exists.mp hbs
  have hreach' := Tree.reach_node hf hb [] y
  rw [List.nil_append] at hreach'
  rw [hreach'] at hreach
  obtain ⟨tok, htok, hval, hlt, hdrop'⟩ := token_of_drop hdrop
  have hent : Returns (env.enter e)
      ⟨env.cursor + 1, env.operands, ⟨e, e.restEnd⟩ :: env.pending, .expectOperand⟩ [] := by
    rw [Env.enter_of_ne (by rw [hm]; decide) e, hlead, hrest]
    exact Env.advance_trailing rfl (by simp [hrest]) hbs
  have hend : e.endsWithExpression = true := by
    rw [← (ht.valid.entries e he).bound]
    exact hbs
  obtain ⟨ps, os, huy, hly⟩ := Reads.trailing ht hy hf hb [] (O := env.operands)
    (P := env.pending) (by simp [har]) hdrop' (hay.trailing (by simp [har]) hend (by simp [hs]) hb)
    (le_of_max_le_left hreach) (le_of_max_le_right hreach) hw hfol
  exact ⟨ps, os, huy,
    ((Leads.of_step (Env.step_open hm htok hval hopen hent) rfl hlt).trans hly).of_eq
      (by simp; omega)⟩

theorem reads_binary {e : Entry Op} (he : e ∈ t.entries)
    (hI : Calculator.Infix (Groups.ofTable t) e) {x y : Tree Op} (hx : Reads t tokens x)
    (hy : Reads t tokens y) (hax : e.Admits t 0 x) (hay : e.Admits t 1 y) :
    Reads t tokens (.node e.operator.id [x, y]) := by
  intro env rest p hm hdrop hroot hreach hw hfol
  have hf := ht.valid.find?_entry he
  rw [yield_binary ht.valid he hI] at hdrop ⊢
  obtain ⟨hs, -, hrest, hbs, har, -, hg⟩ := hI
  obtain ⟨b, hb⟩ := Option.isSome_iff_exists.mp hbs
  obtain ⟨hep, hctx⟩ := hroot e.priority (Tree.rootPriority_node hf _)
  have hreach' := Tree.reach_node hf hb [x] y
  rw [List.singleton_append] at hreach'
  rw [hreach'] at hreach
  obtain ⟨hxr, hxreach⟩ := hax.leading hs
  rw [List.append_assoc, List.cons_append] at hdrop
  obtain ⟨ps, os, hux, hlx⟩ := hx env (.sign e.firstSign :: (y.yield t ++ rest)) e.priority hm hdrop
    (fun r hr => ⟨hxr r hr, fun q hq => Pending.closesBefore_anti (hctx q hq) (hxr r hr)⟩)
    hxreach hw (follows_lead ht he hs _)
  obtain ⟨tok, htok, hval, hlt, hdrop'⟩ := token_of_drop (drop_after hdrop)
  -- the infix operator is the first of its sign's group
  obtain ⟨others, hg'⟩ :
      ∃ others, (Groups.ofTable t).continuing? e.firstSign = some (e :: others) := by
    cases hc : (Groups.ofTable t).continuing? e.firstSign with
    | none => rw [hc] at hg; cases hg
    | some l =>
      rw [hc] at hg
      cases l with
      | nil => cases hg
      | cons a l =>
        cases hg
        exact ⟨l, rfl⟩
  have hadv : Returns (Env.advance ⟨env.cursor + (x.yield t).length + 1, x :: env.operands,
      ⟨e, e.lead + 1⟩ :: env.pending, .afterOperand⟩)
      ⟨env.cursor + (x.yield t).length + 1, [x].reverse ++ env.operands,
        ⟨e, e.restEnd⟩ :: env.pending, .expectOperand⟩ [] := by
    rw [← hrest]
    exact Env.advance_trailing rfl le_rfl hbs
  have hstep := hux.step_into ht.valid htok hval (hw.not_waiting hg') hg' hxreach hctx hadv
  have hend : e.endsWithExpression = true := by
    rw [← (ht.valid.entries e he).bound]
    exact hbs
  obtain ⟨ps', os', huy, hly⟩ := Reads.trailing ht hy hf hb [x] (O := env.operands)
    (P := env.pending) (by simp [har]) hdrop' (hay.trailing (by simp [har]) hend (by simp) hb)
    (le_of_max_le_left hreach) (le_of_max_le_right hreach) hw hfol
  exact ⟨ps', os', huy,
    (hlx.trans ((Leads.of_step hstep rfl hlt).trans hly)).of_eq (by simp; omega)⟩

theorem reads_call {e : Entry Op} (he : e ∈ t.entries) (hP : Postfix (Groups.ofTable t) e)
    {x y : Tree Op} (hx : Reads t tokens x) (hy : Reads t tokens y) (hax : e.Admits t 0 x) :
    Reads t tokens (.node e.operator.id [x, y]) := by
  intro env rest p hm hdrop hroot hreach hw hfol
  have hf := ht.valid.find?_entry he
  rw [yield_call ht.valid he hP] at hdrop ⊢
  obtain ⟨hs, -, -, hlead, hpat, hrest, hb, har, hg, hcopen, hccont⟩ := hP
  obtain ⟨hep, hctx⟩ := hroot e.priority (Tree.rootPriority_node hf _)
  obtain ⟨hxr, hxreach⟩ := hax.leading hs
  rw [List.append_assoc, List.cons_append] at hdrop
  obtain ⟨ps, os, hux, hlx⟩ := hx env _ e.priority hm hdrop
    (fun r hr => ⟨hxr r hr, fun q hq => Pending.closesBefore_anti (hctx q hq) (hxr r hr)⟩)
    hxreach hw (follows_lead ht he hs _)
  obtain ⟨tok, htok, hval, hlt, hdrop'⟩ := token_of_drop (drop_after hdrop)
  have hadv : Returns (Env.advance ⟨env.cursor + (x.yield t).length + 1, x :: env.operands,
      ⟨e, e.lead + 1⟩ :: env.pending, .afterOperand⟩)
      ⟨env.cursor + (x.yield t).length + 1, [x].reverse ++ env.operands,
        ⟨e, 2⟩ :: env.pending, .expectOperand⟩ [] := by
    rw [hlead]
    exact Env.advance_at_hole (by simp [hrest]) (by rw [hpat]; rfl)
  have hstep := hux.step_into ht.valid htok hval (hw.not_waiting hg) hg hxreach hctx hadv
  rw [List.append_assoc, List.singleton_append] at hdrop'
  have hmid := Reads.middle ht hy (by rw [hpat]; rfl) hrest hb hcopen hccont [x]
    (O := env.operands) (P := env.pending) (by simp [har]) hdrop'
  refine ⟨[], [_], .whole _, ?_⟩
  exact (hlx.trans ((Leads.of_step hstep rfl hlt).trans hmid)).of_eq (by simp; omega)

theorem reads_suffix {e : Entry Op} (he : e ∈ t.entries) (hS : Suffix (Groups.ofTable t) e)
    {x : Tree Op} (hx : Reads t tokens x) (hax : e.Admits t 0 x) :
    Reads t tokens (.node e.operator.id [x]) := by
  intro env rest p hm hdrop hroot hreach hw hfol
  have hf := ht.valid.find?_entry he
  rw [yield_suffix ht.valid he hS] at hdrop ⊢
  have hsuffix := hS
  obtain ⟨hs, -, -, hlead, -, hrest, hb, har, first, -, hg, hfirst, hprio⟩ := hS
  obtain ⟨-, -, hrest₁, hbs₁, -, -, -⟩ := hfirst
  obtain ⟨hep, hctx⟩ := hroot e.priority (Tree.rootPriority_node hf _)
  obtain ⟨hxr, hxreach⟩ := hax.leading hs
  rw [List.append_assoc, List.singleton_append] at hdrop
  obtain ⟨ps, os, hux, hlx⟩ := hx env _ e.priority hm hdrop
    (fun r hr => ⟨hxr r hr, fun q hq => Pending.closesBefore_anti (hctx q hq) (hxr r hr)⟩)
    hxreach hw (follows_lead ht he hs _)
  obtain ⟨tok, htok, hval, hlt, hdrop'⟩ := token_of_drop (drop_after hdrop)
  have hadv : Returns (Env.advance ⟨env.cursor + (x.yield t).length + 1, x :: env.operands,
      ⟨first, first.lead + 1⟩ :: env.pending, .afterOperand⟩)
      ⟨env.cursor + (x.yield t).length + 1, x :: env.operands,
        ⟨first, first.lead + 1⟩ :: env.pending, .expectOperand⟩ [] :=
    Env.advance_trailing rfl (by rw [hrest₁]) hbs₁
  have hstep := hux.step_into ht.valid htok hval (hw.not_waiting hg) hg (hprio ▸ hxreach)
    (hprio ▸ hctx) hadv
  obtain ⟨f, hfail⟩ : ∃ f, Returns ((⟨env.cursor + (x.yield t).length + 1, x :: env.operands,
      ⟨first, first.lead + 1⟩ :: env.pending, .expectOperand⟩ : Env Op).step (Groups.ofTable t)
        tokens) (.fail f) [] := by
    refine Env.step_stuck rfl (step_stuck_of_drop hdrop' fun v hv => ?_)
    obtain ⟨s, hvs, hop⟩ := hfol v hv
    exact ⟨s, hvs, hop e he hsuffix hep⟩
  have hent : Returns ((⟨env.cursor + (x.yield t).length, os ++ env.operands, ps ++ env.pending,
      .afterOperand⟩ : Env Op).enter e) ⟨env.cursor + (x.yield t).length + 1,
        .node e.operator.id ([] ++ [x]) :: env.operands, env.pending, .afterOperand⟩ [] := by
    have hbuild : Returns (Env.advance ⟨env.cursor + (x.yield t).length + 1,
        x :: (([] : List (Tree Op)).reverse ++ env.operands), ⟨e, e.lead + 1⟩ :: env.pending,
          .afterOperand⟩) ⟨env.cursor + (x.yield t).length + 1,
        .node e.operator.id ([] ++ [x]) :: env.operands, env.pending, .afterOperand⟩ [] :=
      Env.advance_builds (by simp [hrest, hlead]) hb (by simp [har])
    exact hux.enter hxreach hctx hbuild
  refine ⟨[], [_], .whole _, ?_⟩
  exact (hlx.trans (Leads.of_retry hstep hfail hent rfl hlt)).of_eq (by simp; omega)

theorem reads_of_placed {leafOk : Literal → Prop} {opOk : Op → Prop} {tree : Tree Op}
    (h : tree.Placed t leafOk opOk) : Reads t tokens tree := by
  induction h with
  | leaf => exact reads_leaf _
  | @node op args e hfind _ hlen hadm _ ih =>
    obtain ⟨he, rfl⟩ := Table.find?_eq_some hfind
    rcases ht.forms e he with hE | hP | hI | hP | hS
    · obtain ⟨-, -, -, -, -, -, har, -⟩ := id hE
      obtain ⟨y, rfl⟩ := List.length_eq_one_iff.mp (hlen.trans har)
      exact reads_enclosing ht he hE (ih 0 y rfl)
    · obtain ⟨-, -, -, -, -, -, -, har, -⟩ := id hP
      obtain ⟨y, rfl⟩ := List.length_eq_one_iff.mp (hlen.trans har)
      exact reads_prefixed ht he hP (ih 0 y rfl) (hadm 0 y rfl)
    · obtain ⟨-, -, -, -, har, -⟩ := id hI
      obtain ⟨x, y, rfl⟩ := List.length_eq_two.mp (hlen.trans har)
      exact reads_binary ht he hI (ih 0 x rfl) (ih 1 y rfl) (hadm 0 x rfl) (hadm 1 y rfl)
    · obtain ⟨-, -, -, -, -, -, -, har, -⟩ := id hP
      obtain ⟨x, y, rfl⟩ := List.length_eq_two.mp (hlen.trans har)
      exact reads_call ht he hP (ih 0 x rfl) (ih 1 y rfl) (hadm 0 x rfl)
    · obtain ⟨-, -, -, -, -, -, -, har, -⟩ := id hS
      obtain ⟨x, rfl⟩ := List.length_eq_one_iff.mp (hlen.trans har)
      exact reads_suffix ht he hS (ih 0 x rfl) (hadm 0 x rfl)

theorem accepts_of_placed {leafOk : Literal → Prop} {opOk : Op → Prop} {tree : Tree Op}
    (h : tree.Placed t leafOk opOk) (hvals : tokens.toList.map (·.value) = tree.yield t) :
    Accepts (Groups.ofTable t) tokens {} tree := by
  obtain ⟨p, hroot, hreach⟩ := tree.exists_level (t := t)
  obtain ⟨ps, os, hu, hl⟩ := reads_of_placed ht h {} [] p rfl (by simpa using hvals)
    (fun r hr => ⟨hroot r hr, by simp⟩) hreach (by simp [WaitsApart, obligation])
    (by simp [Follows])
  have hend : Leads (Groups.ofTable t) tokens {}
      ⟨(tree.yield t).length, os, ps, .afterOperand⟩ := hl.of_eq (by simp)
  refine hend tree (Accepts.of_accept (Env.step_finish rfl ?_ ?_
    (hu.reduceTimes (List.append_nil ps).symm (List.append_nil os).symm) rfl))
  · exact token_none_of_drop (by simp [hvals])
  · rw [← List.append_nil ps, obligation_append (hu.slotSign ht.valid)]
    rfl

theorem parse_of_placed {leafOk : Literal → Prop} {opOk : Op → Prop} {tree : Tree Op}
    (h : tree.Placed t leafOk opOk) (hvals : tokens.toList.map (·.value) = tree.yield t) :
    ((Parser.ofTable t).parse tokens).1 = .ok tree := by
  have hs := search_fuel_stable t tokens
    (le_max_left ((Parser.ofTable t).fuel tokens) (2 * tokens.size + 1))
  rw [← hs, accepts_of_placed ht h hvals _ _ _ (by show 2 * (tokens.size - 0) < _; omega)]
  rfl

end Parser

end Mixfix
