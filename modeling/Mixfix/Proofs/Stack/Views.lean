import Mixfix.Stack.Script
import Mixfix.Stack.Lemmas

namespace Mixfix.Stack

variable {α : Type}

/-- The number of nodes an operation adds to the arena: one for a push, none otherwise. -/
def Command.pushes : Command α → Nat
  | .push .. => 1
  | _ => 0

namespace Session

open Arena

/-- The view of handle `i`: the values of its stack from the top down. -/
def view (s : Session α) (i : Nat) : List α :=
  match s.handles[i]? with
  | some h => s.arena.toList h
  | none => []

/-- Every node links to an older node, and every handle is a stack of the arena. -/
def Consistent (s : Session α) : Prop :=
  s.arena.Descending ∧ ∀ (i : Nat) h, s.handles[i]? = some h → s.arena.Holds h

/-- The reply `r` to operation `c`, which took the script from `s` to `t`, agrees with the views. -/
def Answers (s : Session α) : Command α → Reply α → Session α → Prop
  | .push i v, .pushed n, t => n = s.handles.size ∧ t.view n = v :: s.view i
  | .pop i, .popped none, _ => s.view i = []
  | .pop i, .popped (some (n, v)), t => n = s.handles.size ∧ s.view i = v :: t.view n
  | .peek i, .top x, _ => x = (s.view i).head?
  | .len i, .length n e, _ => n = (s.view i).length ∧ (e = true ↔ s.view i = [])
  | .iter i, .values vs, _ => vs = s.view i
  | .eq i j, .same b, _ => b = true → s.view i = s.view j
  | _, _, _ => False

def Keeps (s t : Session α) : Prop :=
  ∀ i, i < s.handles.size → t.view i = s.view i

/-- Every operation of a script run from `s`, after `n` pushes, answers as the views say, keeps
the views of the handles before it, and leaves one node for each push so far. -/
def Faithful : Session α → Nat → List (Command α) → Prop
  | _, _, [] => True
  | s, n, c :: cs =>
    match s.run c with
    | none => True
    | some (r, t) =>
      s.Answers c r t ∧ s.Keeps t ∧ t.arena.nodeCount = n + c.pushes ∧
        Faithful t (n + c.pushes) cs

theorem view_of {s : Session α} {i : Nat} {h : Handle} (hh : s.handles[i]? = some h) :
    s.view i = s.arena.toList h := by
  simp [view, hh]

theorem consistent_empty : ({} : Session α).Consistent := by
  refine ⟨descending_empty, fun i h hi => ?_⟩
  cases i with
  | zero =>
    simp at hi
    subst hi
    exact holds_empty _
  | succ k => simp at hi

theorem handle_push {hs : Array Handle} {g h : Handle} {i : Nat} (hi : (hs.push g)[i]? = some h) :
    (i = hs.size ∧ h = g) ∨ hs[i]? = some h := by
  rw [Array.getElem?_push] at hi
  split at hi
  · cases hi
    exact Or.inl ⟨by assumption, rfl⟩
  · exact Or.inr hi

theorem view_push_lt {s : Session α} {g : Handle} {i : Nat} (hi : i < s.handles.size) :
    ({ s with handles := s.handles.push g } : Session α).view i = s.view i := by
  simp only [view]
  rw [Array.getElem?_push_lt hi, Array.getElem?_eq_getElem hi]

theorem run_push_laws {s t : Session α} {i : Nat} {v : α} {r : Reply α} (hs : s.Consistent)
    (h : s.run (.push i v) = some (r, t)) :
    t.Consistent ∧ s.Answers (.push i v) r t ∧ s.Keeps t ∧
      t.arena.nodeCount = s.arena.nodeCount + 1 := by
  obtain ⟨hd, hh⟩ := hs
  cases hg : s.handles[i]? with
  | none => simp [run, hg] at h
  | some g =>
    simp [run, hg, addHandle] at h
    obtain ⟨rfl, rfl⟩ := h
    have hgh := hh i g hg
    refine ⟨⟨hd.push hgh v, fun k h' hk => ?_⟩, ?_, fun k hk => ?_, size_push s.arena g v⟩
    · rcases handle_push hk with ⟨_, rfl⟩ | hk
      · exact Holds.push_new hd hgh v
      · exact Holds.push_old hd hgh v (hh k h' hk)
    · refine ⟨rfl, ?_⟩
      rw [view_of Array.getElem?_push_size, view_of hg, toList_push_new hd hgh v]
    · obtain ⟨g', hg'⟩ : ∃ g', s.handles[k]? = some g' := ⟨_, Array.getElem?_eq_getElem hk⟩
      have hk' : (s.handles.push (s.arena.push g v).2)[k]? = some g' := by
        rw [Array.getElem?_push_lt hk, ← Array.getElem?_eq_getElem hk]
        exact hg'
      rw [view_of hk', view_of hg']
      exact toList_push_old hd hgh v (hh k g' hg')

theorem run_pop_laws {s t : Session α} {i : Nat} {r : Reply α} (hs : s.Consistent)
    (h : s.run (.pop i) = some (r, t)) :
    t.Consistent ∧ s.Answers (.pop i) r t ∧ s.Keeps t ∧ t.arena.nodeCount = s.arena.nodeCount := by
  obtain ⟨hd, hh⟩ := hs
  cases hg : s.handles[i]? with
  | none => simp [run, hg] at h
  | some g =>
    have hgh := hh i g hg
    simp [run, hg, addHandle] at h
    cases hp : s.arena.pop g with
    | none =>
      simp [hp] at h
      obtain ⟨rfl, rfl⟩ := h
      refine ⟨⟨hd, hh⟩, ?_, fun _ _ => rfl, rfl⟩
      show s.view i = []
      rw [view_of hg]
      exact toList_of_pop_none hgh hp
    | some bv =>
      obtain ⟨b, v⟩ := bv
      simp [hp] at h
      obtain ⟨rfl, rfl⟩ := h
      refine ⟨⟨hd, fun k h' hk => ?_⟩, ⟨rfl, ?_⟩, fun k hk => view_push_lt hk, rfl⟩
      · rcases handle_push hk with ⟨_, rfl⟩ | hk
        · exact Holds.pop hd hgh hp
        · exact hh k h' hk
      · rw [view_of hg, view_of Array.getElem?_push_size]
        exact toList_pop hd hp

theorem run_laws {s t : Session α} {c : Command α} {r : Reply α} (hs : s.Consistent)
    (h : s.run c = some (r, t)) :
    t.Consistent ∧ s.Answers c r t ∧ s.Keeps t ∧
      t.arena.nodeCount = s.arena.nodeCount + c.pushes := by
  obtain ⟨hd, hh⟩ := hs
  cases c with
  | push i v => exact run_push_laws ⟨hd, hh⟩ h
  | pop i => exact run_pop_laws ⟨hd, hh⟩ h
  | peek i =>
    cases hg : s.handles[i]? with
    | none => simp [run, hg] at h
    | some g =>
      simp [run, hg] at h
      obtain ⟨rfl, rfl⟩ := h
      refine ⟨⟨hd, hh⟩, ?_, fun _ _ => rfl, rfl⟩
      show _ = (s.view i).head?
      rw [view_of hg]
      exact peek_eq_head hd g
  | len i =>
    cases hg : s.handles[i]? with
    | none => simp [run, hg] at h
    | some g =>
      simp [run, hg] at h
      obtain ⟨rfl, rfl⟩ := h
      refine ⟨⟨hd, hh⟩, ?_, fun _ _ => rfl, rfl⟩
      have hl := (hh i g hg).2
      show _ = (s.view i).length ∧ (_ = true ↔ s.view i = [])
      rw [view_of hg, hl]
      refine ⟨rfl, ?_⟩
      rw [← List.length_eq_zero_iff, hl]
      simp
  | iter i =>
    cases hg : s.handles[i]? with
    | none => simp [run, hg] at h
    | some g =>
      simp [run, hg] at h
      obtain ⟨rfl, rfl⟩ := h
      refine ⟨⟨hd, hh⟩, ?_, fun _ _ => rfl, rfl⟩
      show _ = s.view i
      rw [view_of hg]
  | eq i j =>
    cases hg : s.handles[i]? with
    | none => simp [run, hg] at h
    | some g =>
      cases hg' : s.handles[j]? with
      | none => simp [run, hg, hg'] at h
      | some g' =>
        simp [run, hg, hg'] at h
        obtain ⟨rfl, rfl⟩ := h
        refine ⟨⟨hd, hh⟩, fun he => ?_, fun _ _ => rfl, rfl⟩
        rw [view_of hg, view_of hg', of_decide_eq_true he]

theorem faithful_of_consistent {s : Session α} (hs : s.Consistent) (cs : List (Command α)) (n : Nat)
    (hn : s.arena.nodeCount = n) : Faithful s n cs := by
  induction cs generalizing s n with
  | nil => trivial
  | cons c cs ih =>
    unfold Faithful
    cases hr : s.run c with
    | none => trivial
    | some p =>
      obtain ⟨r, t⟩ := p
      obtain ⟨ht, ha, hk, hc⟩ := run_laws hs hr
      have hc' : t.arena.nodeCount = n + c.pushes := by rw [hc, hn]
      exact ⟨ha, hk, hc', ih ht _ hc'⟩

/-- Every script run from the empty arena with the empty handle agrees with the views. -/
theorem scripts_refine_views (cs : List (Command α)) : Faithful ({} : Session α) 0 cs :=
  faithful_of_consistent consistent_empty cs 0 rfl

end Session

end Mixfix.Stack
