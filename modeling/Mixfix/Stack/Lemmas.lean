import Mixfix.Stack.Arena

namespace Mixfix.Stack.Arena

variable {α : Type}

def Descending (a : Arena α) : Prop :=
  ∀ i (l : Link α) p, a.links[i]? = some l → l.parent = some p → p < i

/-- A stack of the arena: its top is a node of the arena and its length counts its values. -/
def Holds (a : Arena α) (h : Handle) : Prop :=
  (∀ i, h.top = some i → i < a.links.size) ∧ (a.toList h).length = h.length

theorem valuesFrom_zero (a : Arena α) (o : Option Nat) : a.valuesFrom 0 o = [] := by
  cases o <;> rfl

theorem valuesFrom_none (a : Arena α) (n : Nat) : a.valuesFrom n none = [] := by
  cases n <;> rfl

theorem valuesFrom_some (a : Arena α) (n i : Nat) :
    a.valuesFrom (n + 1) (some i) =
      match a.links[i]? with
      | some l => l.value :: a.valuesFrom n l.parent
      | none => [] := rfl

theorem valuesFrom_fuel {a : Arena α} (ha : a.Descending) :
    ∀ (n m : Nat) (o : Option Nat), (∀ i, o = some i → i < n ∧ i < m) →
      a.valuesFrom n o = a.valuesFrom m o := by
  intro n
  induction n with
  | zero =>
    intro m o ho
    cases o with
    | none => rw [valuesFrom_zero, valuesFrom_none]
    | some i => exact absurd (ho i rfl).1 (Nat.not_lt_zero i)
  | succ n ih =>
    intro m o ho
    cases o with
    | none => rw [valuesFrom_none, valuesFrom_none]
    | some i =>
      obtain ⟨hn, hm⟩ := ho i rfl
      obtain ⟨m, rfl⟩ : ∃ m', m = m' + 1 := ⟨m - 1, by omega⟩
      rw [valuesFrom_some, valuesFrom_some]
      cases hl : a.links[i]? with
      | none => rfl
      | some l =>
        simp only
        rw [ih m l.parent]
        intro p hp
        have := ha i l p hl hp
        omega

theorem toList_top {a : Arena α} (ha : a.Descending) {i : Nat} {l : Link α}
    (hl : a.links[i]? = some l) (n m : Nat) :
    a.toList ⟨some i, n⟩ = l.value :: a.toList ⟨l.parent, m⟩ := by
  have hi : i < a.links.size := by
    rcases Nat.lt_or_ge i a.links.size with h | h
    · exact h
    · rw [Array.getElem?_eq_none h] at hl
      cases hl
  obtain ⟨k, hk⟩ : ∃ k, a.links.size = k + 1 := ⟨a.links.size - 1, by omega⟩
  unfold toList
  simp only
  rw [hk, valuesFrom_some, hl]
  simp only [List.cons.injEq, true_and]
  apply valuesFrom_fuel ha
  intro p hp
  have := ha i l p hl hp
  omega

theorem toList_empty (a : Arena α) (n : Nat) : a.toList ⟨none, n⟩ = [] := by
  unfold toList
  exact valuesFrom_none a _

theorem links_push_lt (a : Arena α) (h : Handle) (v : α) {i : Nat} (hi : i < a.links.size) :
    (a.push h v).1.links[i]? = a.links[i]? := by
  simp only [push]
  rw [Array.getElem?_push_lt hi, Array.getElem?_eq_getElem hi]

theorem valuesFrom_push {a : Arena α} (ha : a.Descending) (h : Handle) (v : α) :
    ∀ (n : Nat) (o : Option Nat), (∀ i, o = some i → i < a.links.size) →
      (a.push h v).1.valuesFrom n o = a.valuesFrom n o := by
  intro n
  induction n with
  | zero => intro o _; rw [valuesFrom_zero, valuesFrom_zero]
  | succ n ih =>
    intro o ho
    cases o with
    | none => rw [valuesFrom_none, valuesFrom_none]
    | some i =>
      rw [valuesFrom_some, valuesFrom_some, links_push_lt a h v (ho i rfl)]
      cases hl : a.links[i]? with
      | none => rfl
      | some l =>
        simp only
        rw [ih l.parent]
        intro p hp
        have := ha i l p hl hp
        have := ho i rfl
        omega

theorem size_push (a : Arena α) (h : Handle) (v : α) :
    (a.push h v).1.links.size = a.links.size + 1 := by
  simp [push]

theorem Descending.push {a : Arena α} (ha : a.Descending) {h : Handle} (hh : a.Holds h) (v : α) :
    (a.push h v).1.Descending := by
  intro i l p hl hp
  simp only [Arena.push] at hl
  rw [Array.getElem?_push] at hl
  split at hl
  · rename_i heq
    cases hl
    have := hh.1 p hp
    omega
  · exact ha i l p hl hp

theorem toList_push_old {a : Arena α} (ha : a.Descending) {h : Handle} (hh : a.Holds h) (v : α)
    {g : Handle} (hg : a.Holds g) : (a.push h v).1.toList g = a.toList g := by
  unfold toList
  rw [size_push, valuesFrom_fuel (ha.push hh v) (a.links.size + 1) a.links.size]
  · exact valuesFrom_push ha h v _ _ hg.1
  · intro i hi
    have := hg.1 i hi
    omega

theorem toList_push_new {a : Arena α} (ha : a.Descending) {h : Handle} (hh : a.Holds h) (v : α) :
    (a.push h v).1.toList (a.push h v).2 = v :: a.toList h := by
  have hl : (a.push h v).1.links[a.links.size]? = some ⟨v, h.top⟩ := by
    simp only [push]
    exact Array.getElem?_push_size
  rw [show (a.push h v).2 = ⟨some a.links.size, h.length + 1⟩ from rfl,
    toList_top (ha.push hh v) hl _ h.length]
  simp only [List.cons.injEq, true_and]
  exact toList_push_old ha hh v hh

theorem holds_empty (a : Arena α) : a.Holds {} := by
  refine ⟨fun _ h => (nomatch h), ?_⟩
  show (a.toList ⟨none, 0⟩).length = 0
  rw [toList_empty]
  rfl

theorem descending_empty : ({} : Arena α).Descending :=
  fun _ _ _ hl => nomatch hl

theorem Holds.push_new {a : Arena α} (ha : a.Descending) {h : Handle} (hh : a.Holds h) (v : α) :
    (a.push h v).1.Holds (a.push h v).2 := by
  refine ⟨fun i hi => ?_, ?_⟩
  · cases hi
    rw [size_push]
    omega
  · rw [toList_push_new ha hh v, List.length_cons, hh.2]
    rfl

theorem Holds.push_old {a : Arena α} (ha : a.Descending) {h : Handle} (hh : a.Holds h) (v : α)
    {g : Handle} (hg : a.Holds g) : (a.push h v).1.Holds g := by
  refine ⟨fun i hi => ?_, ?_⟩
  · rw [size_push]
    have := hg.1 i hi
    omega
  · rw [toList_push_old ha hh v hg]
    exact hg.2

theorem peek_eq_head {a : Arena α} (ha : a.Descending) (h : Handle) :
    a.peek h = (a.toList h).head? := by
  obtain ⟨top, n⟩ := h
  cases top with
  | none => rw [toList_empty]; rfl
  | some i =>
    cases hl : a.links[i]? with
    | some l =>
      rw [toList_top ha hl n 0]
      show a.links[i]?.map (·.value) = _
      rw [hl]
      rfl
    | none =>
      show a.links[i]?.map (·.value) = _
      rw [hl]
      unfold toList
      cases a.links.size with
      | zero => rw [valuesFrom_zero]; rfl
      | succ k => rw [valuesFrom_some, hl]; rfl

theorem pop_some (a : Arena α) (i n : Nat) :
    a.pop ⟨some i, n⟩ = a.links[i]?.map fun l => (⟨l.parent, n - 1⟩, l.value) := rfl

theorem toList_pop {a : Arena α} (ha : a.Descending) {h b : Handle} {v : α}
    (hp : a.pop h = some (b, v)) : a.toList h = v :: a.toList b := by
  obtain ⟨top, n⟩ := h
  cases top with
  | none => cases hp
  | some i =>
    rw [pop_some] at hp
    cases hl : a.links[i]? with
    | none => rw [hl] at hp; cases hp
    | some l =>
      rw [hl] at hp
      cases hp
      exact toList_top ha hl n _

theorem Holds.pop {a : Arena α} (ha : a.Descending) {h b : Handle} {v : α} (hh : a.Holds h)
    (hp : a.pop h = some (b, v)) : a.Holds b := by
  have hv := toList_pop ha hp
  obtain ⟨top, n⟩ := h
  cases top with
  | none => cases hp
  | some i =>
    rw [pop_some] at hp
    cases hl : a.links[i]? with
    | none => rw [hl] at hp; cases hp
    | some l =>
      rw [hl] at hp
      cases hp
      refine ⟨fun p hp' => ?_, ?_⟩
      · have := ha i l p hl hp'
        have := hh.1 i rfl
        omega
      · have : (a.toList ⟨some i, n⟩).length = n := hh.2
        rw [hv, List.length_cons] at this
        show _ = n - 1
        omega

theorem toList_of_pop_none {a : Arena α} {h : Handle} (hh : a.Holds h) (hp : a.pop h = none) :
    a.toList h = [] := by
  obtain ⟨top, n⟩ := h
  cases top with
  | none => exact toList_empty a n
  | some i =>
    have hi := hh.1 i rfl
    rw [pop_some, Array.getElem?_eq_getElem hi] at hp
    cases hp

end Mixfix.Stack.Arena
