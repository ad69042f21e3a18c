import Mathlib
import Mixfix.Grammar.Definitions

namespace Mixfix

/-- The slot a word stands for: `_` is a hole, `_:` followed by a level name a hole limited to
that level, and every other word a sign. -/
inductive SlotWord : String → Slot → Prop
  | hole : SlotWord "_" (.hole none)
  | limited (x : String) : x ≠ "" → SlotWord ("_:" ++ x) (.hole (some x))
  | sign (w : String) : w ≠ "_" → ¬ ['_', ':'] <+: w.toList → SlotWord w (.sign w)

theorem toList_limit (x : String) : ("_:" ++ x).toList = '_' :: ':' :: x.toList := by
  simp [String.toList_append, show "_:".toList = ['_', ':'] from rfl]

theorem eq_limit_iff {w : String} {rest : List Char} :
    w.toList = '_' :: ':' :: rest ↔ w = "_:" ++ String.ofList rest := by
  rw [← String.toList_inj, toList_limit, String.toList_ofList]

theorem ne_underscore_limit (x : String) : "_:" ++ x ≠ "_" := by
  intro h
  have hl := congrArg String.length h
  rw [String.length_append, show "_:".length = 2 by decide, show "_".length = 1 by decide] at hl
  omega

theorem Slot.ofWord_eq_some_iff {w : String} {s : Slot} :
    Slot.ofWord w = some s ↔ SlotWord w s := by
  constructor
  · intro h
    unfold Slot.ofWord at h
    split_ifs at h with hw
    · cases h
      subst hw
      exact .hole
    · split at h
      · cases h
      · rename_i rest hne hrest
        cases h
        rw [eq_limit_iff.mp hrest]
        refine .limited _ fun h => hne ?_
        rw [← String.toList_ofList (l := rest), h]
        rfl
      · rename_i hno
        cases h
        exact .sign w hw fun hp => hno _ (List.prefix_iff_eq_append.mp hp).symm
  · intro h
    unfold Slot.ofWord
    cases h with
    | hole => rfl
    | limited x hx =>
      rw [if_neg (ne_underscore_limit x), toList_limit]
      cases hxl : x.toList with
      | nil => exact absurd (String.toList_eq_nil_iff.mp hxl) hx
      | cons c cs =>
        show some (Slot.hole (some (String.ofList (c :: cs)))) = _
        rw [← hxl, String.ofList_toList]
    | sign w hne hpre =>
      rw [if_neg hne]
      split
      · rename_i h
        exact absurd (h ▸ List.prefix_refl _) hpre
      · rename_i rest _ h
        exact absurd (h ▸ List.prefix_append _ rest) hpre
      · rfl

theorem Slot.ofWord_eq_none_iff {w : String} : Slot.ofWord w = none ↔ w = "_:" := by
  unfold Slot.ofWord
  constructor
  · intro h
    split_ifs at h with hw
    split at h
    · rename_i hl
      rw [← String.toList_inj, hl]
      rfl
    · cases h
    · cases h
  · rintro rfl
    rw [if_neg (by decide), show "_:".toList = ['_', ':'] from rfl]
    rfl

theorem Slot.ofWords_eq_some_iff {ws : List String} {ps : List Slot} :
    Slot.ofWords ws = some ps ↔ List.Forall₂ SlotWord ws ps := by
  induction ws generalizing ps with
  | nil => simp [Slot.ofWords, eq_comm]
  | cons w ws ih =>
    simp only [Slot.ofWords] at ih ⊢
    rw [List.forall₂_cons_left_iff]
    simp only [← Slot.ofWord_eq_some_iff, ← ih, List.mapM_cons]
    cases Slot.ofWord w <;> cases List.mapM Slot.ofWord ws <;> simp [eq_comm]

theorem Slot.ofWords_eq_none_iff {ws : List String} : Slot.ofWords ws = none ↔ "_:" ∈ ws := by
  induction ws with
  | nil => simp [Slot.ofWords]
  | cons w ws ih =>
    simp only [Slot.ofWords] at ih ⊢
    rw [List.mem_cons, ← ih, @eq_comm _ "_:" w, ← Slot.ofWord_eq_none_iff, List.mapM_cons]
    cases Slot.ofWord w <;> cases List.mapM Slot.ofWord ws <;> simp

theorem forall₂_append_singleton_iff {α β : Type} {R : α → β → Prop} {as : List α} {a : α}
    {bs : List β} :
    List.Forall₂ R (as ++ [a]) bs ↔ ∃ bs' b, bs = bs' ++ [b] ∧ List.Forall₂ R as bs' ∧ R a b := by
  constructor
  · intro h
    rw [← List.forall₂_reverse_iff, List.reverse_append, List.reverse_singleton,
      List.singleton_append, List.forall₂_cons_left_iff] at h
    obtain ⟨b, u, hab, hu, hbs⟩ := h
    refine ⟨u.reverse, b, ?_, ?_, hab⟩
    · rw [← List.reverse_reverse bs, hbs, List.reverse_cons]
    · rw [← List.forall₂_reverse_iff, List.reverse_reverse]
      exact hu
  · rintro ⟨bs', b, rfl, h, hab⟩
    exact List.rel_append h (.cons hab .nil)

namespace Level

variable {ι : Type}

theorem addToLast_cons (x : Level ι) {levels : List (Level ι)} (h : levels ≠ []) (op : Operator ι) :
    addToLast (x :: levels) op = x :: addToLast levels op := by
  obtain ⟨init, last, rfl⟩ := (List.eq_nil_or_concat' levels).resolve_left h
  rw [← List.cons_append, addToLast, addToLast, List.getLast?_concat, List.getLast?_concat,
    List.dropLast_concat, List.dropLast_concat]
  rfl

end Level

/-- What a line of definitions says. -/
inductive Line (ι : Type) where
  | quiet
  | opens (name : String) (assoc : Assoc)
  | adds (op : Operator ι)

namespace Line

variable {ι : Type}

/-- The levels that a run of lines gives, with the operators of the lines before its first level
line: each level line opens a level holding the operators of the lines after it, in order, up to
the next level line. -/
def gather : List (Line ι) → List (Operator ι) × List (Level ι)
  | [] => ([], [])
  | .quiet :: ls => gather ls
  | .adds op :: ls => (op :: (gather ls).1, (gather ls).2)
  | .opens name assoc :: ls => ([], ⟨name, assoc, (gather ls).1⟩ :: (gather ls).2)

def apply : Line ι → List (Level ι) → List (Level ι)
  | .quiet, levels => levels
  | .opens name assoc, levels => levels ++ [⟨name, assoc, []⟩]
  | .adds op, levels => Level.addToLast levels op

/-- Whether a line may come after these levels: an operator line needs a level to join. -/
def Fits : Line ι → List (Level ι) → Prop
  | .adds _, levels => levels ≠ []
  | _, _ => True

theorem apply_cons {l : Line ι} (x : Level ι) {levels : List (Level ι)} (h : l.Fits levels) :
    l.apply (x :: levels) = x :: l.apply levels := by
  cases l with
  | quiet => rfl
  | opens name assoc => rfl
  | adds op => exact Level.addToLast_cons x h op

theorem gather_append_orphan {ls : List (Line ι)} (h : (gather ls).2 = []) (op : Operator ι) :
    gather (ls ++ [.adds op]) = ((gather ls).1 ++ [op], []) := by
  induction ls with
  | nil => rfl
  | cons l ls ih =>
    cases l with
    | quiet => exact ih h
    | adds o =>
      simp only [List.cons_append, gather] at h ⊢
      rw [ih h]
    | opens name assoc => simp [gather] at h

theorem gather_append_of_fits {ls : List (Line ι)} {l : Line ι} (h : l.Fits (gather ls).2) :
    gather (ls ++ [l]) = ((gather ls).1, l.apply (gather ls).2) := by
  induction ls with
  | nil =>
    cases l with
    | quiet => rfl
    | opens name assoc => rfl
    | adds op => exact absurd rfl h
  | cons l' ls ih =>
    cases l' with
    | quiet => exact ih h
    | adds o =>
      simp only [List.cons_append, gather] at h ⊢
      rw [ih h]
    | opens name assoc =>
      simp only [List.cons_append, gather]
      by_cases hf : l.Fits (gather ls).2
      · rw [ih hf, apply_cons _ hf]
      · rcases l with _ | ⟨n, a⟩ | op
        · exact absurd trivial hf
        · exact absurd trivial hf
        · have hnil : (gather ls).2 = [] := not_not.mp hf
          rw [gather_append_orphan hnil, hnil]
          rfl

theorem gather_append_eq_iff {ls : List (Line ι)} {l : Line ι} {levels : List (Level ι)} :
    gather (ls ++ [l]) = ([], levels) ↔
      (gather ls).1 = [] ∧ l.Fits (gather ls).2 ∧ levels = l.apply (gather ls).2 := by
  by_cases hf : l.Fits (gather ls).2
  · rw [gather_append_of_fits hf, Prod.mk.injEq]
    constructor
    · rintro ⟨h1, h2⟩
      exact ⟨h1, hf, h2.symm⟩
    · rintro ⟨h1, -, h2⟩
      exact ⟨h1, h2.symm⟩
  · rcases l with _ | ⟨n, a⟩ | op
    · exact absurd trivial hf
    · exact absurd trivial hf
    · rw [gather_append_orphan (not_not.mp hf)]
      simp [hf]

variable [OperatorId ι]

/-- A well-formed line and what it says. The directive of an operator line is the name of its
kind, its identifier is known, and its slots are read word by word. -/
inductive Says : List String → Line ι → Prop
  | blank : Says [] .quiet
  | comment (d : String) (rest : List String) : d.startsWith "//" = true → Says (d :: rest) .quiet
  | level (name : String) (assoc : Assoc) : Says ["level", name, assoc.name] (.opens name assoc)
  | operator (kind : Kind) (name : String) (id : ι) (slots : List String) (pattern : List Slot) :
      OperatorId.ofName? name = some id → List.Forall₂ SlotWord slots pattern → pattern ≠ [] →
      Says (kind.name :: name :: slots) (.adds ⟨id, kind, pattern⟩)

/-- The fault of a line, after the levels read before it (`opened` when there is one): the first
check of the line that fails, each constructor carrying the checks before it that pass. -/
inductive Fault (ι : Type) [OperatorId ι] : Bool → List String → DefinitionFault → Prop
  | unknownDirective (opened : Bool) (d : String) (rest : List String) :
      d.startsWith "//" = false → d ≠ "level" → d ≠ "chain" → d ≠ "value" →
      Fault ι opened (d :: rest) (.unknownDirective d)
  | malformedLevel (opened : Bool) (rest : List String) :
      rest.length ≠ 2 → Fault ι opened ("level" :: rest) .malformedLevel
  | invalidAssoc (opened : Bool) (name w : String) :
      w ≠ "left" → w ≠ "right" → Fault ι opened ["level", name, w] (.invalidAssoc w)
  | noLevel (kind : Kind) (rest : List String) : Fault ι false (kind.name :: rest) .noLevel
  | missingId (kind : Kind) : Fault ι true [kind.name] .missingId
  | unknownId (kind : Kind) (name : String) (slots : List String) :
      OperatorId.ofName? (ι := ι) name = none →
      Fault ι true (kind.name :: name :: slots) (.unknownId name)
  | emptyLimit (kind : Kind) (name : String) (id : ι) (slots : List String) :
      OperatorId.ofName? name = some id → "_:" ∈ slots →
      Fault ι true (kind.name :: name :: slots) .emptyLimit
  | emptyPattern (kind : Kind) (name : String) (id : ι) :
      OperatorId.ofName? name = some id → Fault ι true [kind.name, name] (.emptyPattern name)

variable {levels : List (Level ι)} {ws : List String}

theorem Says.readLine_eq {l : Line ι} (h : Says ws l) (hf : l.Fits levels) :
    Level.readLine levels ws = .ok (l.apply levels) := by
  cases h with
  | blank => rfl
  | comment d rest hc => simp [Level.readLine, hc, apply]
  | level name assoc => cases assoc <;> simp [Level.readLine, Assoc.name, Assoc.ofName, apply]
  | operator kind name id slots pattern hid hslots hne =>
    have hl : levels ≠ [] := hf
    obtain ⟨p, ps, rfl⟩ := List.exists_cons_of_ne_nil hne
    have hw := Slot.ofWords_eq_some_iff.mpr hslots
    cases kind <;> simp [Level.readLine, Kind.name, hid, hw, hl, apply]

theorem Fault.readLine_eq {f : DefinitionFault} (h : Fault ι (!levels.isEmpty) ws f) :
    Level.readLine levels ws = .error f := by
  generalize ho : (!levels.isEmpty) = opened at h
  cases h with
  | unknownDirective _ d rest hc hl hch hv => simp [Level.readLine, hc, hl, hch, hv]
  | malformedLevel _ rest hr =>
    rcases rest with _ | ⟨a, _ | ⟨b, _ | ⟨c, rest⟩⟩⟩
    · simp [Level.readLine]
    · simp [Level.readLine]
    · exact absurd rfl hr
    · simp [Level.readLine]
  | invalidAssoc _ name w hl hr => simp [Level.readLine, Assoc.ofName, hl, hr]
  | noLevel kind rest =>
    have hl : levels = [] := by simpa using ho
    cases kind <;> simp [Level.readLine, Kind.name, hl]
  | missingId kind =>
    have hl : levels ≠ [] := by simpa using ho
    cases kind <;> simp [Level.readLine, Kind.name, hl]
  | unknownId kind name slots hid =>
    have hl : levels ≠ [] := by simpa using ho
    cases kind <;> simp [Level.readLine, Kind.name, hl, hid]
  | emptyLimit kind name id slots hid hmem =>
    have hl : levels ≠ [] := by simpa using ho
    have hw := Slot.ofWords_eq_none_iff.mpr hmem
    cases kind <;> simp [Level.readLine, Kind.name, hl, hid, hw]
  | emptyPattern kind name id hid =>
    have hl : levels ≠ [] := by simpa using ho
    cases kind <;> simp [Level.readLine, Kind.name, Slot.ofWords, hl, hid]

theorem says_or_fault_level (opened : Bool) (levels : List (Level ι)) (rest : List String) :
    (∃ l, Says ("level" :: rest) l ∧ l.Fits levels) ∨ ∃ f, Fault ι opened ("level" :: rest) f := by
  rcases rest with _ | ⟨name, _ | ⟨w, _ | ⟨c, rest⟩⟩⟩
  · exact .inr ⟨_, .malformedLevel _ [] (by simp)⟩
  · exact .inr ⟨_, .malformedLevel _ [name] (by simp)⟩
  · by_cases hl : w = "left"
    · subst hl
      exact .inl ⟨_, .level name .left, trivial⟩
    by_cases hr : w = "right"
    · subst hr
      exact .inl ⟨_, .level name .right, trivial⟩
    exact .inr ⟨_, .invalidAssoc _ name w hl hr⟩
  · exact .inr ⟨_, .malformedLevel _ (name :: w :: c :: rest) (by simp)⟩

theorem says_or_fault_operator (kind : Kind) (rest : List String) :
    (∃ l, Says (kind.name :: rest) l ∧ l.Fits levels) ∨
      ∃ f, Fault ι (!levels.isEmpty) (kind.name :: rest) f := by
  cases hl : levels.isEmpty
  case true => exact .inr ⟨_, .noLevel kind rest⟩
  have hne : levels ≠ [] := by simpa using hl
  rcases rest with _ | ⟨name, slots⟩
  · exact .inr ⟨_, .missingId kind⟩
  cases hid : OperatorId.ofName? (ι := ι) name with
  | none => exact .inr ⟨_, .unknownId kind name slots hid⟩
  | some id =>
    cases hw : Slot.ofWords slots with
    | none => exact .inr ⟨_, .emptyLimit kind name id slots hid (Slot.ofWords_eq_none_iff.mp hw)⟩
    | some pattern =>
      have hs := Slot.ofWords_eq_some_iff.mp hw
      rcases pattern with _ | ⟨p, ps⟩
      · rw [List.forall₂_nil_right_iff.mp hs]
        exact .inr ⟨_, .emptyPattern kind name id hid⟩
      · exact .inl ⟨_, .operator kind name id slots _ hid hs (List.cons_ne_nil p ps), hne⟩

theorem says_or_fault (levels : List (Level ι)) (ws : List String) :
    (∃ l, Says ws l ∧ l.Fits levels) ∨ ∃ f, Fault ι (!levels.isEmpty) ws f := by
  rcases ws with _ | ⟨d, rest⟩
  · exact .inl ⟨_, .blank, trivial⟩
  cases hc : d.startsWith "//"
  case true => exact .inl ⟨_, .comment d rest hc, trivial⟩
  by_cases hl : d = "level"
  · subst hl
    exact says_or_fault_level _ _ rest
  by_cases hch : d = "chain"
  · subst hch
    exact says_or_fault_operator .chain rest
  by_cases hv : d = "value"
  · subst hv
    exact says_or_fault_operator .value rest
  exact .inr ⟨_, .unknownDirective _ d rest hc hl hch hv⟩

end Line

namespace Level

variable {ι : Type} [OperatorId ι] {levels : List (Level ι)} {ws : List String}

theorem readLine_eq_ok_iff {levels' : List (Level ι)} :
    readLine levels ws = .ok levels' ↔
      ∃ l, Line.Says ws l ∧ l.Fits levels ∧ levels' = l.apply levels := by
  constructor
  · intro h
    rcases Line.says_or_fault levels ws with ⟨l, hs, hf⟩ | ⟨f, hf⟩
    · rw [hs.readLine_eq hf] at h
      cases h
      exact ⟨l, hs, hf, rfl⟩
    · rw [hf.readLine_eq] at h
      cases h
  · rintro ⟨l, hs, hf, rfl⟩
    exact hs.readLine_eq hf

theorem readLine_eq_error_iff {f : DefinitionFault} :
    readLine levels ws = .error f ↔ Line.Fault ι (!levels.isEmpty) ws f := by
  constructor
  · intro h
    rcases Line.says_or_fault levels ws with ⟨l, hs, hf⟩ | ⟨f', hf⟩
    · rw [hs.readLine_eq hf] at h
      cases h
    · rw [hf.readLine_eq] at h
      cases h
      exact hf
  · exact Line.Fault.readLine_eq

/-- Reading numbered lines one after the other, as definitions are read. -/
def readLines (lines : List String) : Except DefinitionError (List (Level ι)) :=
  lines.zipIdx.foldlM (fun levels (line, i) =>
    (readLine levels (Text.String.words line)).mapError fun fault => ⟨i + 1, fault⟩) []

theorem readDefinitions_eq_readLines (text : String) :
    readDefinitions (ι := ι) text = readLines (Text.String.lines text) := rfl

theorem readLines_append_singleton (lines : List String) (x : String) :
    readLines (ι := ι) (lines ++ [x]) = (readLines lines).bind fun levels =>
      (readLine levels (Text.String.words x)).mapError fun fault => ⟨lines.length + 1, fault⟩ := by
  rw [readLines, List.zipIdx_append, List.foldlM_append]
  simp [readLines]
  rfl

theorem readLines_append_singleton_eq_ok_iff {lines : List String} {x : String}
    {levels : List (Level ι)} :
    readLines (lines ++ [x]) = .ok levels ↔
      ∃ s, readLines lines = .ok s ∧ readLine s (Text.String.words x) = .ok levels := by
  rw [readLines_append_singleton]
  cases readLines (ι := ι) lines with
  | error e => simp [Except.bind]
  | ok s =>
    simp only [Except.bind]
    cases h : readLine s (Text.String.words x) <;> simp [Except.mapError, h]

theorem readLines_append_singleton_eq_error_iff {lines : List String} {x : String}
    {e : DefinitionError} :
    readLines (ι := ι) (lines ++ [x]) = .error e ↔
      readLines (ι := ι) lines = .error e ∨ ∃ s, readLines (ι := ι) lines = .ok s ∧
        ∃ f, readLine s (Text.String.words x) = .error f ∧ e = ⟨lines.length + 1, f⟩ := by
  rw [readLines_append_singleton]
  cases readLines (ι := ι) lines with
  | error e' => simp [Except.bind]
  | ok s =>
    simp only [Except.bind]
    cases h : readLine s (Text.String.words x) <;> simp [Except.mapError, h, eq_comm]

theorem readLines_eq_ok_iff (lines : List String) (levels : List (Level ι)) :
    readLines lines = .ok levels ↔
      ∃ ls, List.Forall₂ Line.Says (lines.map Text.String.words) ls ∧
        Line.gather ls = ([], levels) := by
  -- from the last line back: reading goes on from the levels of the lines before it, and
  -- gathering adds the last line at the end
  induction lines using List.reverseRecOn generalizing levels with
  | nil =>
    rw [show readLines (ι := ι) [] = .ok [] from rfl, List.map_nil]
    constructor
    · intro h
      cases h
      exact ⟨[], .nil, rfl⟩
    · rintro ⟨ls, hls, hg⟩
      obtain rfl := List.forall₂_nil_left_iff.mp hls
      cases hg
      rfl
  | append_singleton lines x ih =>
    rw [readLines_append_singleton_eq_ok_iff, List.map_append, List.map_singleton]
    simp only [forall₂_append_singleton_iff]
    constructor
    · rintro ⟨s, hs, hl⟩
      obtain ⟨ls, hls, hg⟩ := (ih s).mp hs
      obtain ⟨l, hsays, hf, rfl⟩ := readLine_eq_ok_iff.mp hl
      refine ⟨ls ++ [l], ⟨ls, l, rfl, hls, hsays⟩, ?_⟩
      rw [Line.gather_append_eq_iff, hg]
      exact ⟨rfl, hf, rfl⟩
    · rintro ⟨_, ⟨ls, l, rfl, hls, hsays⟩, hg⟩
      obtain ⟨h1, hf, rfl⟩ := Line.gather_append_eq_iff.mp hg
      exact ⟨_, (ih _).mpr ⟨ls, hls, Prod.ext h1 rfl⟩, readLine_eq_ok_iff.mpr ⟨l, hsays, hf, rfl⟩⟩

theorem readLines_eq_error_iff (lines : List String) (e : DefinitionError) :
    readLines (ι := ι) lines = .error e ↔
      ∃ pre ws post, ∃ ls : List (Line ι), lines.map Text.String.words = pre ++ ws :: post ∧
        e.line = pre.length + 1 ∧ List.Forall₂ Line.Says pre ls ∧ (Line.gather ls).1 = [] ∧
        Line.Fault ι (!(Line.gather ls).2.isEmpty) ws e.fault := by
  induction lines using List.reverseRecOn with
  | nil =>
    rw [show readLines (ι := ι) [] = .ok [] from rfl, List.map_nil]
    constructor
    · intro h
      cases h
    · rintro ⟨pre, ws, post, ls, h, -⟩
      simp at h
  | append_singleton lines x ih =>
    rw [readLines_append_singleton_eq_error_iff, ih, List.map_append, List.map_singleton]
    constructor
    · rintro (⟨pre, ws, post, ls, hl, he, hls, h1, hf⟩ | ⟨s, hs, f, hf, rfl⟩)
      · exact ⟨pre, ws, post ++ [Text.String.words x], ls, by simp [hl], he, hls, h1, hf⟩
      · obtain ⟨ls, hls, hg⟩ := (readLines_eq_ok_iff lines s).mp hs
        refine ⟨lines.map Text.String.words, Text.String.words x, [], ls, rfl, by simp, hls,
          by rw [hg], ?_⟩
        rw [hg]
        exact readLine_eq_error_iff.mp hf
    · rintro ⟨pre, ws, post, ls, hl, he, hls, h1, hf⟩
      rcases List.eq_nil_or_concat' post with rfl | ⟨post, y, rfl⟩
      · obtain ⟨rfl, rfl⟩ := List.append_singleton_inj.mp hl
        refine .inr ⟨(Line.gather ls).2,
          (readLines_eq_ok_iff lines _).mpr ⟨ls, hls, Prod.ext h1 rfl⟩, e.fault,
          readLine_eq_error_iff.mpr hf, ?_⟩
        cases e
        dsimp only at he ⊢
        rw [he, List.length_map]
      · rw [show pre ++ ws :: (post ++ [y]) = (pre ++ ws :: post) ++ [y] by simp] at hl
        exact .inl ⟨pre, ws, post, ls, (List.append_singleton_inj.mp hl).1, he, hls, h1, hf⟩

/-- Definitions read line by line. They read as levels exactly when every line is well-formed and
no operator line comes before the first level line; the levels are then those the lines gather:
one for each level line, in order, with the operators of the lines after it up to the next one.
Otherwise the error names the first line that is not so, numbered from one, and the first check
of that line that fails. -/
theorem readDefinitions_lines (text : String) :
    (∀ levels, readDefinitions (ι := ι) text = .ok levels ↔
      ∃ ls, List.Forall₂ Line.Says ((Text.String.lines text).map Text.String.words) ls ∧
        Line.gather ls = ([], levels)) ∧
    ∀ e, readDefinitions (ι := ι) text = .error e ↔
      ∃ pre ws post, ∃ ls : List (Line ι),
        (Text.String.lines text).map Text.String.words = pre ++ ws :: post ∧
        e.line = pre.length + 1 ∧ List.Forall₂ Line.Says pre ls ∧ (Line.gather ls).1 = [] ∧
        Line.Fault ι (!(Line.gather ls).2.isEmpty) ws e.fault := by
  rw [readDefinitions_eq_readLines]
  exact ⟨readLines_eq_ok_iff _, readLines_eq_error_iff _⟩

end Level

end Mixfix
