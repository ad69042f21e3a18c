import Mixfix.Proofs.Syntax.Yield
import Mixfix.Parse.Search

namespace Mixfix

namespace Pending

variable {ι : Type} (p : Pending ι)

/-- The position after the last matched slot among the node's slots. -/
def pos : Nat := p.entry.leading + p.next

/-- The operands complete: those of the holes before the last matched slot. -/
def settled : Nat := (p.entry.slots.take (p.pos - 1)).countP Slot.isHole

/-- What the pending operator has shown, its complete operands reading as `parts`. -/
def shows (parts : List (List TokenValue)) : List TokenValue := p.entry.shown p.pos parts

/-- Waits for a sign, the hole before it taking the operand in progress. -/
def Waiting : Prop :=
  p.next < p.entry.restEnd ∧ (∃ s, p.entry.operator.pattern[p.next]? = some (.sign s)) ∧
    ∃ a, p.entry.operator.pattern[p.next - 1]? = some (.hole a)

/-- Has matched its slots and takes the operand in progress as its trailing operand. -/
def Trailing : Prop :=
  p.next = p.entry.restEnd ∧ p.entry.bound.isSome = true

def Open : Prop := p.Waiting ∨ p.Trailing

def Fresh : Prop :=
  0 < p.next ∧ p.next ≤ p.entry.restEnd ∧ ∃ s, p.entry.operator.pattern[p.next - 1]? = some (.sign s)

def AtSign : Prop :=
  p.Fresh ∧ p.next < p.entry.restEnd ∧ ∃ s, p.entry.operator.pattern[p.next]? = some (.sign s)

variable {p}

theorem slots_pos (k : Nat) : p.entry.slots[p.entry.leading + k]? = p.entry.operator.pattern[k]? :=
  p.entry.slots_getElem k

theorem settled_eq (hn : 0 < p.next) :
    p.settled = p.entry.leading + (p.entry.operator.pattern.take (p.next - 1)).countP Slot.isHole := by
  unfold settled pos
  rw [show p.entry.leading + p.next - 1 = p.entry.leading + (p.next - 1) by omega,
    Entry.countP_slots_take]

theorem slots_before_pos (hn : 0 < p.next) :
    p.entry.slots[p.pos - 1]? = p.entry.operator.pattern[p.next - 1]? := by
  unfold pos
  rw [show p.entry.leading + p.next - 1 = p.entry.leading + (p.next - 1) by omega, slots_pos]

theorem settled_of_sign {s : String} (hn : 0 < p.next)
    (hs : p.entry.operator.pattern[p.next - 1]? = some (.sign s)) :
    (p.entry.slots.take p.pos).countP Slot.isHole = p.settled := by
  have h := countP_take_sign (l := p.entry.slots) (k := p.pos - 1)
    (by rw [slots_before_pos hn]; exact hs)
  rwa [Nat.sub_add_cancel (by unfold pos; omega)] at h

theorem Trailing.pos_sign (he : p.entry.Valid) (ht : p.Trailing) :
    0 < p.next ∧ ∃ s, p.entry.operator.pattern[p.next - 1]? = some (.sign s) := by
  obtain ⟨hpos, hsign, -⟩ := he.trailing ht.2
  rw [ht.1]
  exact ⟨hpos, hsign⟩

theorem Trailing.settled_add_one (he : p.entry.Valid) (ht : p.Trailing) :
    p.settled + 1 = p.entry.arity := by
  obtain ⟨hpos, ⟨s, hs⟩, hcount, -⟩ := he.trailing ht.2
  rw [settled_eq (by rw [ht.1]; exact hpos), ht.1, ← countP_take_sign hs,
    Nat.sub_add_cancel hpos]
  exact hcount

theorem Trailing.layout (he : p.entry.Valid) (ht : p.Trailing) {parts : List (List TokenValue)}
    (hp : parts.length = p.settled) (q : List TokenValue) :
    p.entry.layout .sign (parts ++ [q]) = p.shows parts ++ q := by
  obtain ⟨hn, s, hs⟩ := ht.pos_sign he
  obtain ⟨-, -, -, hdrop⟩ := he.trailing ht.2
  apply Entry.layout_trailing (hp.trans (settled_of_sign hn hs).symm)
  unfold pos
  rw [Entry.slots_drop, ht.1]
  rcases hdrop with ⟨-, hd⟩ | ⟨-, a, hd⟩
  · exact .inl hd
  · exact .inr ⟨a, hd⟩

theorem Fresh.complete_settled (he : p.entry.Valid) (hf : p.Fresh) (hr : p.entry.restEnd ≤ p.next)
    (hb : p.entry.bound = none) : p.settled = p.entry.arity := by
  obtain ⟨hn, hle, s, hs⟩ := hf
  obtain ⟨hlen, -, hcount⟩ := he.complete hb
  rw [settled_eq hn, ← countP_take_sign hs, Nat.sub_add_cancel hn,
    show p.next = p.entry.operator.pattern.length by omega, List.take_length]
  exact hcount

theorem Fresh.complete_layout (he : p.entry.Valid) (hf : p.Fresh) (hr : p.entry.restEnd ≤ p.next)
    (hb : p.entry.bound = none) {parts : List (List TokenValue)} (hp : parts.length = p.settled) :
    p.entry.layout .sign parts = p.shows parts := by
  obtain ⟨hn, hle, s, hs⟩ := hf
  obtain ⟨hlen, -, -⟩ := he.complete hb
  have hpos : p.pos = p.entry.slots.length := by
    unfold pos; rw [Entry.slots_length]; omega
  rw [shows, hpos]
  apply Entry.layout_complete
  rw [hp, ← settled_of_sign hn hs, hpos, List.take_length]

theorem pos_bump : ({ p with next := p.next + 1 } : Pending ι).pos = p.pos + 1 := by
  simp [pos, Nat.add_assoc]

theorem AtSign.consume {s : String} (ha : p.AtSign)
    (hs : p.entry.operator.pattern[p.next]? = some (.sign s)) :
    ({ p with next := p.next + 1 } : Pending ι).Fresh ∧
      ({ p with next := p.next + 1 } : Pending ι).settled = p.settled ∧
      ∀ parts, ({ p with next := p.next + 1 } : Pending ι).shows parts = p.shows parts ++ [.sign s] := by
  obtain ⟨⟨hn, -, t, ht⟩, hlt, -⟩ := ha
  have hslot : p.entry.slots[p.pos]? = some (.sign s) := by unfold pos; rw [slots_pos]; exact hs
  refine ⟨⟨by simp, hlt, s, by simpa using hs⟩, ?_, fun parts => ?_⟩
  · simp only [settled, pos_bump, Nat.add_sub_cancel]
    exact settled_of_sign hn ht
  · simp only [shows, pos_bump]
    exact Entry.shown_sign hslot parts

theorem Waiting.consume {s : String} (hw : p.Waiting)
    (hs : p.entry.operator.pattern[p.next]? = some (.sign s)) {parts : List (List TokenValue)}
    (hp : parts.length = p.settled) (q : List TokenValue) :
    ({ p with next := p.next + 1 } : Pending ι).Fresh ∧
      ({ p with next := p.next + 1 } : Pending ι).settled = p.settled + 1 ∧
      ({ p with next := p.next + 1 } : Pending ι).shows (parts ++ [q]) =
        p.shows parts ++ q ++ [.sign s] := by
  obtain ⟨hlt, -, a, ha⟩ := hw
  have hn : 0 < p.next := by
    refine Nat.pos_of_ne_zero fun h0 => ?_
    rw [h0] at ha hs
    rw [ha] at hs
    cases hs
  have hslot : p.entry.slots[p.pos]? = some (.sign s) := by unfold pos; rw [slots_pos]; exact hs
  have hhole : p.entry.slots[p.pos - 1]? = some (.hole a) := by rw [slots_before_pos hn]; exact ha
  have hpos : p.pos - 1 + 1 = p.pos := by unfold pos; omega
  refine ⟨⟨by simp, hlt, s, by simpa using hs⟩, ?_, ?_⟩
  · simp only [settled, pos_bump, Nat.add_sub_cancel]
    rw [← hpos, countP_take_hole hhole, Nat.sub_add_cancel (by unfold pos; omega)]
  · simp only [shows, pos_bump]
    rw [Entry.shown_sign hslot, ← hpos, Entry.shown_hole_fill hhole hp,
      Entry.shown_hole_skip hhole (Nat.le_of_eq hp)]

theorem Fresh.skip {a : Option String} (he : p.entry.Valid) (hf : p.Fresh)
    (hk : p.next < p.entry.restEnd) (hh : p.entry.operator.pattern[p.next]? = some (.hole a)) :
    ({ p with next := p.next + 1 } : Pending ι).Waiting ∧
      ({ p with next := p.next + 1 } : Pending ι).settled = p.settled ∧
      ∀ {parts : List (List TokenValue)}, parts.length = p.settled →
        ({ p with next := p.next + 1 } : Pending ι).shows parts = p.shows parts := by
  obtain ⟨hn, -, s, hs⟩ := hf
  obtain ⟨hlt, t, ht⟩ := he.sign_after_hole hk hh
  have hslot : p.entry.slots[p.pos]? = some (.hole a) := by unfold pos; rw [slots_pos]; exact hh
  refine ⟨⟨hlt, ⟨t, ht⟩, a, by rw [Nat.add_sub_cancel]; exact hh⟩, ?_, fun hp => ?_⟩
  · simp only [settled, pos_bump, Nat.add_sub_cancel]
    exact settled_of_sign hn hs
  · simp only [shows, pos_bump]
    exact Entry.shown_hole_skip hslot (Nat.le_of_eq (by rw [hp, settled_of_sign hn hs]))

variable {e : Entry ι}

theorem fresh_enter (he : e.Valid) : (⟨e, e.lead + 1⟩ : Pending ι).Fresh :=
  ⟨by simp, he.lead_lt_restEnd, e.firstSign, by simpa using he.lead_sign⟩

theorem enter_opening (he : e.Valid) (hs : e.startsWithExpression = false) :
    (⟨e, e.lead + 1⟩ : Pending ι).settled = 0 ∧
      (⟨e, e.lead + 1⟩ : Pending ι).shows [] = [.sign e.firstSign] := by
  obtain ⟨hlead, hlg⟩ := he.opening hs
  have hslot : e.slots[0]? = some (.sign e.firstSign) := by
    have h := e.slots_getElem e.lead
    rw [hlg, hlead, Nat.zero_add] at h
    rw [h, ← hlead]
    exact he.lead_sign
  refine ⟨by simp [settled, pos, hlg, hlead], ?_⟩
  simp only [shows, pos, hlg, hlead]
  rw [Entry.shown_sign hslot]
  rfl

theorem enter_continuing (he : e.Valid) (hs : e.startsWithExpression = true) :
    (⟨e, e.lead + 1⟩ : Pending ι).settled = 1 ∧
      ∀ q, (⟨e, e.lead + 1⟩ : Pending ι).shows [q] = q ++ [.sign e.firstSign] := by
  have hpos : e.leading + (e.lead + 1) = 2 := by
    rcases he.continuing hs with ⟨h1, h2⟩ | ⟨h1, h2, -⟩ <;> omega
  obtain ⟨a, hhole⟩ : ∃ a, e.slots[0]? = some (.hole a) := by
    rcases he.continuing hs with ⟨h1, -⟩ | ⟨h1, -, a, ha⟩
    · exact ⟨none, by simp [e.slots_eq, h1]⟩
    · exact ⟨a, by rw [← ha, ← e.slots_getElem 0, h1]⟩
  have hslot : e.slots[1]? = some (.sign e.firstSign) := by
    rw [← he.lead_sign, ← e.slots_getElem]
    congr 1
    omega
  refine ⟨?_, fun q => ?_⟩
  · simp only [settled, pos, hpos]
    simp [List.take_one, List.head?_eq_getElem?, hhole, Slot.isHole]
  · simp only [shows, pos, hpos]
    rw [Entry.shown_sign hslot, show [q] = ([] : List (List TokenValue)) ++ [q] from rfl,
      Entry.shown_hole_fill hhole (by simp) q]
    rfl

theorem slotSign_eq_some {s : String} :
    p.slotSign = some s ↔ p.entry.operator.pattern[p.next]? = some (.sign s) := by
  unfold slotSign
  cases p.entry.operator.pattern[p.next]? with
  | none => simp
  | some x => cases x <;> simp [Slot.sign?]

theorem Trailing.slotSign_eq_none (he : p.entry.Valid) (ht : p.Trailing) : p.slotSign = none := by
  obtain ⟨-, -, -, hdrop⟩ := he.trailing ht.2
  have hget : p.entry.operator.pattern[p.next]? = (p.entry.operator.pattern.drop p.next)[0]? := by
    simp
  rw [← ht.1] at hdrop
  rcases hdrop with ⟨-, hd⟩ | ⟨-, a, hd⟩ <;> simp [slotSign, hget, hd, Slot.sign?]

theorem Open.trailing_of_slotSign (ho : p.Open) (hs : p.slotSign = none) : p.Trailing := by
  rcases ho with ⟨-, ⟨s, hsign⟩, -⟩ | ht
  · rw [slotSign_eq_some.mpr hsign] at hs
    cases hs
  · exact ht

theorem Open.waiting_of_slotSign (he : p.entry.Valid) (ho : p.Open) {s : String}
    (hs : p.slotSign = some s) : p.Waiting := by
  rcases ho with hw | ht
  · exact hw
  · rw [ht.slotSign_eq_none he] at hs
    cases hs

theorem Open.trailing_of_closesBefore {priority : Nat} (ho : p.Open)
    (hc : p.closesBefore priority = true) : p.Trailing := by
  rcases ho with ⟨hlt, -⟩ | ht
  · unfold closesBefore at hc
    split at hc
    · simp only [Bool.and_eq_true, decide_eq_true_eq] at hc
      omega
    · cases hc
  · exact ht

end Pending

theorem obligation_some {ι : Type} : ∀ {ps : List (Pending ι)} {d : Nat} {s : String},
    obligation ps = some (d, s) →
      (∀ q ∈ ps.take d, q.slotSign = none) ∧ ∃ q, ps[d]? = some q ∧ q.slotSign = some s
  | [], _, _, h => by simp [obligation] at h
  | p :: ps, d, s, h => by
    unfold obligation at h
    split at h
    · rename_i s' hs'
      simp only [Option.some.injEq, Prod.mk.injEq] at h
      obtain ⟨rfl, rfl⟩ := h
      exact ⟨by simp, p, rfl, hs'⟩
    · rename_i hnone
      obtain ⟨⟨d', s'⟩, hd, he⟩ := Option.map_eq_some_iff.mp h
      simp only [Prod.mk.injEq] at he
      obtain ⟨rfl, rfl⟩ := he
      obtain ⟨hall, q, hq, hqs⟩ := obligation_some hd
      refine ⟨?_, q, by simpa using hq, hqs⟩
      intro q' hq'
      rcases List.mem_cons.mp (by simpa using hq') with rfl | hq'
      · exact hnone
      · exact hall q' hq'

theorem obligation_none {ι : Type} : ∀ {ps : List (Pending ι)},
    obligation ps = none → ∀ q ∈ ps, q.slotSign = none
  | [], _ => by simp
  | p :: ps, h => by
    unfold obligation at h
    split at h
    · cases h
    · rename_i hnone
      intro q hq
      rcases List.mem_cons.mp hq with rfl | hq
      · exact hnone
      · exact obligation_none (Option.map_eq_none_iff.mp h) q hq

namespace Env

variable {ι : Type}

/-- One for the operand just read, which no pending operator has taken yet. -/
def extra (env : Env ι) : Nat := if env.mode = .afterOperand then 1 else 0

/-- What the pending operators have shown, outermost first, each with its complete operands taken
from `ys`, the yields of the operands with the last first. -/
def reading : List (Pending ι) → List (List TokenValue) → List TokenValue
  | [], _ => []
  | p :: ps, ys => reading ps (ys.drop p.settled) ++ p.shows (ys.take p.settled).reverse

/-- Each pending operator has an operand in progress, except in sign mode the innermost one,
which waits for a sign right after a sign. -/
def Shaped : Mode → List (Pending ι) → Prop
  | .expectSign, p :: ps => p.AtSign ∧ ∀ q ∈ ps, q.Open
  | .expectSign, [] => False
  | .expectOperand, ps => ∀ q ∈ ps, q.Open
  | .afterOperand, ps => ∀ q ∈ ps, q.Open

theorem extra_expectOperand {env : Env ι} (h : env.mode = .expectOperand) : env.extra = 0 := by
  simp [extra, h]

theorem extra_expectSign {env : Env ι} (h : env.mode = .expectSign) : env.extra = 0 := by
  simp [extra, h]

theorem extra_afterOperand {env : Env ι} (h : env.mode = .afterOperand) : env.extra = 1 := by
  simp [extra, h]

variable [DecidableEq ι]

/-- The invariant of every line of the search over `tokens`: the pending operators are entries
of the table in their shape; the operands are those complete for them, and the one just read;
each operand fits the table; and the tokens before the cursor read as what the pending operators
have shown around their complete operands, followed by the operand just read. -/
structure Valid (t : Table ι) (tokens : Array Token) (env : Env ι) : Prop where
  entries : ∀ p ∈ env.pending, p.entry ∈ t.entries
  shaped : Shaped env.mode env.pending
  count : env.operands.length = (env.pending.map Pending.settled).sum + env.extra
  fits : ∀ o ∈ env.operands, o.Fits t
  reads : (tokens.toList.take env.cursor).map (·.value) =
    reading env.pending ((env.operands.map (Tree.yield t)).drop env.extra) ++
      ((env.operands.map (Tree.yield t)).take env.extra).flatten

/-- An environment whose innermost operator has just matched a sign, before its next slot sets
the mode. -/
structure Ready (t : Table ι) (tokens : Array Token) (env : Env ι) : Prop where
  entries : ∀ p ∈ env.pending, p.entry ∈ t.entries
  top : ∃ p ps, env.pending = p :: ps ∧ p.Fresh ∧ ∀ q ∈ ps, q.Open
  count : env.operands.length = (env.pending.map Pending.settled).sum
  fits : ∀ o ∈ env.operands, o.Fits t
  reads : (tokens.toList.take env.cursor).map (·.value) =
    reading env.pending (env.operands.map (Tree.yield t))

theorem valid_start (t : Table ι) (tokens : Array Token) : ({} : Env ι).Valid t tokens :=
  ⟨by simp, fun _ h => by simp at h, by simp [extra], by simp, by simp [extra, reading]⟩

omit [DecidableEq ι] in
theorem take_tokens_succ {tokens : Array Token} {i : Nat} {tok : Token}
    (h : tokens[i]? = some tok) :
    (tokens.toList.take (i + 1)).map (·.value) = (tokens.toList.take i).map (·.value) ++ [tok.value] := by
  rw [List.take_add_one, Array.getElem?_toList, h]
  simp

omit [DecidableEq ι] in
theorem reading_cons (p : Pending ι) (ps : List (Pending ι)) (ys : List (List TokenValue)) :
    reading (p :: ps) ys = reading ps (ys.drop p.settled) ++ p.shows (ys.take p.settled).reverse :=
  rfl

variable {t : Table ι} {tokens : Array Token} {env : Env ι} {p : Pending ι}
  {ps : List (Pending ι)} {tok : Token}

theorem Valid.operand (hv : env.Valid t tokens) (hm : env.mode = .afterOperand) :
    ∃ o os, env.operands = o :: os ∧ os.length = (env.pending.map Pending.settled).sum := by
  have hc := hv.count
  rw [extra_afterOperand hm] at hc
  obtain ⟨o, os, hos⟩ := List.exists_cons_of_length_pos (by omega : 0 < env.operands.length)
  refine ⟨o, os, hos, ?_⟩
  rw [hos, List.length_cons] at hc
  omega

theorem Valid.atSign (hv : env.Valid t tokens) (hm : env.mode = .expectSign) :
    ∃ p ps, env.pending = p :: ps ∧ p.AtSign := by
  have hsh := hv.shaped
  rw [hm] at hsh
  cases hp : env.pending with
  | nil => rw [hp] at hsh; exact hsh.elim
  | cons p ps =>
    rw [hp] at hsh
    exact ⟨p, ps, rfl, hsh.1⟩

theorem Valid.consume_atSign {s : String} (hv : env.Valid t tokens) (hm : env.mode = .expectSign)
    (hp : env.pending = p :: ps) (hs : p.entry.operator.pattern[p.next]? = some (.sign s))
    (htok : tokens[env.cursor]? = some tok) (hval : tok.value = .sign s) :
    Ready t tokens
      { env with pending := { p with next := p.next + 1 } :: ps, cursor := env.cursor + 1 } := by
  have hsh := hv.shaped
  rw [hm, hp] at hsh
  obtain ⟨hat, hopen⟩ := hsh
  obtain ⟨hfresh, hset, hshow⟩ := hat.consume hs
  have hx := extra_expectSign hm
  refine ⟨?_, ⟨_, ps, rfl, hfresh, hopen⟩, ?_, hv.fits, ?_⟩
  · exact List.forall_mem_cons.mpr
      ⟨hv.entries p (by simp [hp]), fun q hq => hv.entries q (by simp [hp, hq])⟩
  · have hc := hv.count
    rw [hp, hx] at hc
    simpa [hset] using hc
  · have hr := hv.reads
    rw [hp, hx] at hr
    simp only [List.drop_zero, List.take_zero, List.flatten_nil, List.append_nil] at hr
    simp only [take_tokens_succ htok, hr, hval, reading_cons, hset, hshow, List.append_assoc]

theorem Valid.consume_waiting {s : String} (hv : env.Valid t tokens)
    (hm : env.mode = .afterOperand) (hp : env.pending = p :: ps) (hw : p.Waiting)
    (hs : p.entry.operator.pattern[p.next]? = some (.sign s))
    (htok : tokens[env.cursor]? = some tok) (hval : tok.value = .sign s) :
    Ready t tokens
      { env with pending := { p with next := p.next + 1 } :: ps, cursor := env.cursor + 1 } := by
  have hsh := hv.shaped
  rw [hm, hp] at hsh
  have hx := extra_afterOperand hm
  obtain ⟨o, os, hos, hlen⟩ := hv.operand hm
  rw [hp, List.map_cons, List.sum_cons] at hlen
  have hparts : ((os.map (Tree.yield t)).take p.settled).reverse.length = p.settled := by
    simp; omega
  obtain ⟨hfresh, hset, hshow⟩ := hw.consume hs hparts (o.yield t)
  refine ⟨?_, ⟨_, ps, rfl, hfresh, fun q hq => hsh q (by simp [hq])⟩, ?_, hv.fits, ?_⟩
  · exact List.forall_mem_cons.mpr
      ⟨hv.entries p (by simp [hp]), fun q hq => hv.entries q (by simp [hp, hq])⟩
  · simp only [hos, List.length_cons, List.map_cons, List.sum_cons, hset, hlen]
    omega
  · have hr := hv.reads
    rw [hp, hx, hos] at hr
    simp only [List.map_cons, List.drop_succ_cons, List.drop_zero, List.take_succ_cons,
      List.take_zero, List.flatten_cons, List.flatten_nil, List.append_nil] at hr
    simp only [take_tokens_succ htok, hr, hval, hos, reading_cons, hset, List.map_cons,
      List.drop_succ_cons, List.take_succ_cons, List.reverse_cons, hshow, List.append_assoc]

theorem Valid.enter_opening {e : Entry ι} (ht : t.Valid) (hv : env.Valid t tokens)
    (hm : env.mode = .expectOperand) (he : e ∈ t.entries) (hs : e.startsWithExpression = false)
    (htok : tokens[env.cursor]? = some tok) (hval : tok.value = .sign e.firstSign) :
    Ready t tokens
      { env with pending := ⟨e, e.lead + 1⟩ :: env.pending, cursor := env.cursor + 1 } := by
  have hsh := hv.shaped
  rw [hm] at hsh
  have hx := extra_expectOperand hm
  obtain ⟨hset, hshow⟩ := Pending.enter_opening (ht.entries e he) hs
  refine ⟨?_, ⟨_, _, rfl, Pending.fresh_enter (ht.entries e he), hsh⟩, ?_, hv.fits, ?_⟩
  · exact List.forall_mem_cons.mpr ⟨he, hv.entries⟩
  · have hc := hv.count
    rw [hx] at hc
    simpa [hset] using hc
  · have hr := hv.reads
    rw [hx] at hr
    simp only [List.drop_zero, List.take_zero, List.flatten_nil, List.append_nil] at hr
    simp only [take_tokens_succ htok, hr, hval, reading_cons, hset, List.drop_zero,
      List.take_zero, List.reverse_nil, hshow]

theorem Valid.enter_continuing {e : Entry ι} (ht : t.Valid) (hv : env.Valid t tokens)
    (hm : env.mode = .afterOperand) (he : e ∈ t.entries) (hs : e.startsWithExpression = true)
    (htok : tokens[env.cursor]? = some tok) (hval : tok.value = .sign e.firstSign) :
    Ready t tokens
      { env with pending := ⟨e, e.lead + 1⟩ :: env.pending, cursor := env.cursor + 1 } := by
  have hsh := hv.shaped
  rw [hm] at hsh
  have hx := extra_afterOperand hm
  obtain ⟨hset, hshow⟩ := Pending.enter_continuing (ht.entries e he) hs
  obtain ⟨o, os, hos, hlen⟩ := hv.operand hm
  refine ⟨?_, ⟨_, _, rfl, Pending.fresh_enter (ht.entries e he), hsh⟩, ?_, hv.fits, ?_⟩
  · exact List.forall_mem_cons.mpr ⟨he, hv.entries⟩
  · simp only [hos, List.length_cons, List.map_cons, List.sum_cons, hset, hlen]
    omega
  · have hr := hv.reads
    rw [hx, hos] at hr
    simp only [List.map_cons, List.drop_succ_cons, List.drop_zero, List.take_succ_cons,
      List.take_zero, List.flatten_cons, List.flatten_nil, List.append_nil] at hr
    simp only [take_tokens_succ htok, hr, hval, hos, reading_cons, hset, List.map_cons,
      List.drop_succ_cons, List.drop_zero, List.take_succ_cons, List.take_zero, List.reverse_cons,
      List.reverse_nil, List.nil_append, hshow, List.append_assoc]

theorem Valid.pushLiteral {lit : Literal} (hv : env.Valid t tokens)
    (hm : env.mode = .expectOperand) (htok : tokens[env.cursor]? = some tok)
    (hval : tok.value = lit.value) : (env.pushLiteral lit).Valid t tokens := by
  have hsh := hv.shaped
  rw [hm] at hsh
  have hx := extra_expectOperand hm
  refine ⟨hv.entries, hsh, ?_, ?_, ?_⟩
  · have hc := hv.count
    rw [hx] at hc
    simp [Env.pushLiteral, extra, hc]
  · intro o ho
    rcases List.mem_cons.mp ho with rfl | ho
    · exact trivial
    · exact hv.fits o ho
  · have hr := hv.reads
    rw [hx] at hr
    simp only [List.drop_zero, List.take_zero, List.flatten_nil, List.append_nil] at hr
    simp [Env.pushLiteral, extra, take_tokens_succ htok, hr, hval, Tree.yield]

theorem Valid.pop_trailing (ht : t.Valid) (hv : env.Valid t tokens)
    (hm : env.mode = .afterOperand) (hp : env.pending = p :: ps) (htr : p.Trailing) :
    p.entry.arity ≤ env.operands.length ∧
      Valid t tokens { env with
        operands := Tree.node p.entry.operator.id (env.operands.take p.entry.arity).reverse ::
          env.operands.drop p.entry.arity
        pending := ps } := by
  obtain ⟨cursor, operands, pending, mode⟩ := env
  simp only at hm hp
  subst hm hp
  have he : p.entry ∈ t.entries := hv.entries p (by simp)
  have hs1 := htr.settled_add_one (ht.entries _ he)
  have hsh : ∀ q ∈ p :: ps, q.Open := hv.shaped
  obtain ⟨o, os, rfl, hlen⟩ := hv.operand rfl
  simp only [List.map_cons, List.sum_cons] at hlen
  have hn : p.entry.arity ≤ (o :: os).length := by
    rw [← hs1, List.length_cons]
    omega
  have hfits := Tree.fits_reduce ht he hn hv.fits
  rw [← hs1] at hfits hn ⊢
  refine ⟨hn, fun q hq => hv.entries q (by simp [hq]),
    fun q hq => hsh q (List.mem_cons_of_mem _ hq), ?_, hfits, ?_⟩
  · simp [extra]
    omega
  · have hr := hv.reads
    simp only [extra, if_pos, List.map_cons, List.drop_succ_cons, List.drop_zero,
      List.take_succ_cons, List.take_zero, List.flatten_cons, List.flatten_nil,
      List.append_nil] at hr
    have hparts : ((os.take p.settled).reverse.map (Tree.yield t)).length = p.settled := by
      simp; omega
    have hnode := Tree.yield_node_entry ht he ((o :: os).take (p.settled + 1)).reverse
    rw [List.take_succ_cons, List.reverse_cons, List.map_append, List.map_singleton,
      htr.layout (ht.entries _ he) hparts (o.yield t)] at hnode
    simp only [extra, if_pos, List.map_cons, List.drop_succ_cons, List.drop_zero,
      List.take_succ_cons, List.take_zero, List.flatten_cons, List.flatten_nil,
      List.append_nil, hr, reading_cons, List.map_drop, List.append_assoc]
    rw [List.reverse_cons, hnode, List.map_reverse, List.map_take]

theorem Ready.pop_complete (ht : t.Valid) (hr : env.Ready t tokens) (hp : env.pending = p :: ps)
    (hk : p.entry.restEnd ≤ p.next) (hb : p.entry.bound = none) :
    p.entry.arity ≤ env.operands.length ∧
      Valid t tokens { env with
        operands := Tree.node p.entry.operator.id (env.operands.take p.entry.arity).reverse ::
          env.operands.drop p.entry.arity
        pending := ps
        mode := .afterOperand } := by
  obtain ⟨cursor, operands, pending, mode⟩ := env
  simp only at hp
  subst hp
  obtain ⟨p', ps', hpp, hf, hopen⟩ := hr.top
  simp only [List.cons.injEq] at hpp
  obtain ⟨rfl, rfl⟩ := hpp
  have he : p.entry ∈ t.entries := hr.entries p (by simp)
  have hset := hf.complete_settled (ht.entries _ he) hk hb
  have hc := hr.count
  simp only [List.map_cons, List.sum_cons] at hc
  have hn : p.entry.arity ≤ operands.length := by
    rw [← hset]
    omega
  have hfits := Tree.fits_reduce ht he hn hr.fits
  rw [← hset] at hfits hn ⊢
  refine ⟨hn, fun q hq => hr.entries q (by simp [hq]), hopen, ?_, hfits, ?_⟩
  · simp [extra]
    omega
  · have hparts : ((operands.take p.settled).reverse.map (Tree.yield t)).length = p.settled := by
      simp; omega
    have hnode := Tree.yield_node_entry ht he (operands.take p.settled).reverse
    rw [hf.complete_layout (ht.entries _ he) hk hb hparts] at hnode
    simp only [extra, if_pos, List.map_cons, List.drop_succ_cons, List.drop_zero,
      List.take_succ_cons, List.take_zero, List.flatten_cons, List.flatten_nil,
      List.append_nil, hr.reads, reading_cons, hnode, List.map_drop, List.map_reverse,
      List.map_take]

theorem Ready.skip {a : Option String} (hr : env.Ready t tokens) (hp : env.pending = p :: ps)
    (hk : p.next < p.entry.restEnd) (hh : p.entry.operator.pattern[p.next]? = some (.hole a))
    (ht : t.Valid) :
    Valid t tokens
      { env with pending := { p with next := p.next + 1 } :: ps, mode := .expectOperand } := by
  obtain ⟨cursor, operands, pending, mode⟩ := env
  simp only at hp
  subst hp
  obtain ⟨p', ps', hpp, hf, hopen⟩ := hr.top
  simp only [List.cons.injEq] at hpp
  obtain ⟨rfl, rfl⟩ := hpp
  have he : p.entry ∈ t.entries := hr.entries p (by simp)
  obtain ⟨hw, hset, hshow⟩ := hf.skip (ht.entries _ he) hk hh
  have hc := hr.count
  simp only [List.map_cons, List.sum_cons] at hc
  have hparts : ((operands.map (Tree.yield t)).take p.settled).reverse.length = p.settled := by
    simp; omega
  refine ⟨List.forall_mem_cons.mpr ⟨he, fun q hq => hr.entries q (by simp [hq])⟩,
    List.forall_mem_cons.mpr ⟨.inl hw, hopen⟩, ?_, hr.fits, ?_⟩
  · simp [extra, hset, hc]
  · simp only [extra, reduceCtorEq, if_false, List.drop_zero, List.take_zero, List.flatten_nil,
      List.append_nil, hr.reads, reading_cons, hset, hshow hparts]

theorem Ready.atSign {s : String} (hr : env.Ready t tokens) (hp : env.pending = p :: ps)
    (hk : p.next < p.entry.restEnd) (hs : p.entry.operator.pattern[p.next]? = some (.sign s)) :
    Valid t tokens { env with mode := .expectSign } := by
  obtain ⟨p', ps', hpp, hf, hopen⟩ := hr.top
  rw [hp, List.cons.injEq] at hpp
  obtain ⟨rfl, rfl⟩ := hpp
  refine ⟨hr.entries, ?_, ?_, hr.fits, ?_⟩
  · show Shaped .expectSign env.pending
    rw [hp]
    exact ⟨⟨hf, hk, s, hs⟩, hopen⟩
  · simp [extra, hr.count]
  · simp [extra, hr.reads]

theorem Ready.trailing (hr : env.Ready t tokens) (hp : env.pending = p :: ps)
    (hk : p.entry.restEnd ≤ p.next) (hb : p.entry.bound.isSome = true) :
    Valid t tokens { env with mode := .expectOperand } := by
  obtain ⟨p', ps', hpp, hf, hopen⟩ := hr.top
  rw [hp, List.cons.injEq] at hpp
  obtain ⟨rfl, rfl⟩ := hpp
  refine ⟨hr.entries, ?_, ?_, hr.fits, ?_⟩
  · show ∀ q ∈ env.pending, q.Open
    rw [hp]
    exact List.forall_mem_cons.mpr ⟨.inr ⟨Nat.le_antisymm hf.2.1 hk, hb⟩, hopen⟩
  · simp [extra, hr.count]
  · simp [extra, hr.reads]

end Env

end Mixfix
