import Mixfix.Proofs.Parse.Safety
import Mixfix.Proofs.Parse.Frames
import Mixfix.Calculator.Session

namespace Mixfix

variable {ι : Type}

namespace Env

theorem step_congr {g : Groups ι} {ts ts' : Array Token} {env : Env ι}
    (hv : ts.toList.map (·.value) = ts'.toList.map (·.value)) :
    env.step g ts = env.step g ts' := by
  have hi : (ts[env.cursor]?).map (·.value) = (ts'[env.cursor]?).map (·.value) := by
    have h := congrArg (·[env.cursor]?) hv
    simpa using h
  exact step_congr_at hi

end Env

namespace Parser

theorem search_toOption {g : Groups ι} {ts ts' : Array Token}
    (hv : ts.toList.map (·.value) = ts'.toList.map (·.value)) :
    ∀ (fuel : Nat) (env : Env ι) (best best' : Option SyntaxError),
      Except.toOption <$> search g ts fuel env best =
        Except.toOption <$> search g ts' fuel env best'
  | 0, env, best, best' => by
    simp only [search, map_pure]
    rfl
  | fuel + 1, env, best, best' => by
    simp only [search, Env.step_congr hv, map_bind]
    congr 1
    funext st
    cases st with
    | next e => exact search_toOption hv fuel e best best'
    | accept tree => simp
    | fail f =>
      dsimp only
      simp only [map_bind]
      congr 1
      funext fr
      cases fr.branches with
      | nil =>
        simp only [map_pure]
        rfl
      | cons b rest =>
        simp only [map_bind]
        congr 1
        funext u
        congr 1
        funext e
        exact search_toOption hv fuel e _ _

theorem parse_toOption {p : Parser ι} {ts ts' : Array Token}
    (hv : ts.toList.map (·.value) = ts'.toList.map (·.value)) :
    (p.parse ts).1.toOption = (p.parse ts').1.toOption := by
  have hsize : ts.size = ts'.size := by
    simpa using congrArg List.length hv
  have hs := congrArg
    (fun m : SearchM ι (Option (Tree ι)) => (m.run.run { stats := { tokens := ts.size } }).1)
    (search_toOption (g := p.groups) hv (p.fuel ts) {} none none)
  simp only [ExceptT.run_map, StateT.run_map] at hs
  simp only [parse_eq_parseLists]
  unfold parseLists fuel at *
  dsimp only
  rw [← hsize]
  generalize StateT.run (ExceptT.run (search p.groups ts _ {} none)) _ = r at hs ⊢
  generalize StateT.run (ExceptT.run (search p.groups ts' _ {} none)) _ = r' at hs ⊢
  obtain ⟨res, fr⟩ := r
  obtain ⟨res', fr'⟩ := r'
  change Except.map Except.toOption res = Except.map Except.toOption res' at hs
  rcases res with f | (e | tree) <;> rcases res' with f' | (e' | tree') <;>
    simp_all [Except.map, Except.toOption]

theorem parse_ok_of_values {p : Parser ι} {ts ts' : Array Token} {tree : Tree ι}
    (hp : (p.parse ts).1 = .ok tree) (hv : ts.toList.map (·.value) = ts'.toList.map (·.value)) :
    (p.parse ts').1 = .ok tree := by
  have heq := parse_toOption (p := p) hv
  rw [hp] at heq
  cases hq : (p.parse ts').1 with
  | error e =>
    rw [hq] at heq
    cases heq
  | ok tree' =>
    rw [hq] at heq
    cases heq
    rfl

theorem parseSource_eq_ok {t : Table ι} {source : String} {tree : Tree ι} :
    parseSource t source = .ok tree ↔
      ∃ ts, Token.scan t.signs source = .ok ts ∧ ((ofTable t).parse ts.toArray).1 = .ok tree := by
  unfold parseSource
  cases Token.scan t.signs source with
  | error e => simp
  | ok ts => simp

section RoundTrip

variable [DecidableEq ι]

/-- A tree parsed from a text renders, and its rendering parses back to the same tree exactly when
the rendering scans back to the tree's own tokens: the parser and the printer lose nothing, and a
round trip can only fail where scanning joins or cuts printed tokens. -/
theorem reparse_iff_rescan {levels : List (Level ι)} {t : Table ι}
    (ht : Table.ofLevels levels = .ok t) {source : String} {tree : Tree ι}
    (hp : parseSource t source = .ok tree) :
    ∃ r, tree.render t = .ok r ∧
      (parseSource t r = .ok tree ↔
        (Token.scan t.signs r).map (List.map (·.value)) = .ok (tree.yield t)) := by
  have hv := Table.ofLevels_valid ht
  obtain ⟨ts, -, hts⟩ := parseSource_eq_ok.mp hp
  obtain ⟨hfits, hyield⟩ := parse_ok_reads hv hts
  obtain ⟨r, hr⟩ := Tree.render_ok_of_fits hfits
  refine ⟨r, hr, ⟨fun h => ?_, fun h => ?_⟩⟩
  · obtain ⟨ts', hscan, hts'⟩ := parseSource_eq_ok.mp h
    obtain ⟨-, hyield'⟩ := parse_ok_reads hv hts'
    rw [hscan, hyield']
    rfl
  · obtain ⟨ts', hscan, hvals⟩ : ∃ ts', Token.scan t.signs r = .ok ts' ∧
        ts'.map (·.value) = tree.yield t := by
      cases hs : Token.scan t.signs r with
      | error e => rw [hs] at h; cases h
      | ok ts' =>
        rw [hs] at h
        exact ⟨ts', rfl, Except.ok.inj h⟩
    -- the rescanned tokens have the values of the first ones, so they parse to the same tree
    have hsame : ts.toArray.toList.map (·.value) = ts'.toArray.toList.map (·.value) := by
      simpa [hvals] using hyield.symm
    exact parseSource_eq_ok.mpr ⟨ts', hscan, parse_ok_of_values hts hsame⟩

end RoundTrip

theorem differences_reparse_iff_rescan :
    ∃ t, Table.ofLevels [⟨"sum", .left, [⟨Calculator.Op.sub, .chain, [.sign "-", .hole none]⟩]⟩] =
        .ok t ∧
      ∃ tree, parseSource t "a - b" = .ok tree ∧
        ∃ r, tree.render t = .ok r ∧
          (parseSource t r = .ok tree ↔
            (Token.scan t.signs r).map (List.map (·.value)) = .ok (tree.yield t)) := by
  refine ⟨_, ofLevels_difference, ?_⟩
  have hok : (parseSource ⟨[("sum", .left)],
      [⟨⟨Calculator.Op.sub, .chain, [.sign "-", .hole none]⟩, 0, .left, 0, "-", 1, 2, some 0⟩],
        ["-"]⟩ "a - b").toOption.isSome = true := by
    decide +kernel
  cases hp : parseSource _ "a - b" with
  | error e =>
    rw [hp] at hok
    cases hok
  | ok tree => exact ⟨tree, rfl, reparse_iff_rescan ofLevels_difference hp⟩

theorem render_joins_exponent :
    ∃ t, Table.ofLevels [⟨"sum", .left, [⟨Calculator.Op.sub, .chain, [.sign "-", .hole none]⟩]⟩] =
        .ok t ∧
      ∃ tree, parseSource t ".5e - 3.0" = .ok tree ∧ tree.id? = some Calculator.Op.sub ∧
        tree.render t = .ok ".5e - 3" ∧
        ∃ tree', parseSource t ".5e - 3" = .ok tree' ∧
          tree'.number?.map Decimal.display = some "0.0005" ∧ tree' ≠ tree := by
  refine ⟨_, ofLevels_difference, ?_⟩
  have hfirst : ((parseSource ⟨[("sum", .left)],
      [⟨⟨Calculator.Op.sub, .chain, [.sign "-", .hole none]⟩, 0, .left, 0, "-", 1, 2, some 0⟩],
        ["-"]⟩ ".5e - 3.0").toOption.map fun tree => (tree.id?, (tree.render ⟨[("sum", .left)],
      [⟨⟨Calculator.Op.sub, .chain, [.sign "-", .hole none]⟩, 0, .left, 0, "-", 1, 2, some 0⟩],
        ["-"]⟩).toOption)) = some (some Calculator.Op.sub, some ".5e - 3") := by
    decide +kernel
  have hsecond : ((parseSource ⟨[("sum", .left)],
      [⟨⟨Calculator.Op.sub, .chain, [.sign "-", .hole none]⟩, 0, .left, 0, "-", 1, 2, some 0⟩],
        ["-"]⟩ ".5e - 3").toOption.map fun tree => tree.number?.map Decimal.display) =
      some (some "0.0005") := by
    decide +kernel
  generalize parseSource _ ".5e - 3.0" = r at hfirst ⊢
  generalize parseSource _ ".5e - 3" = r' at hsecond ⊢
  cases r with
  | error e => cases hfirst
  | ok tree =>
    cases r' with
    | error e => cases hsecond
    | ok tree' =>
      simp only [Except.toOption, Option.map_some, Option.some.injEq,
        Prod.mk.injEq] at hfirst hsecond
      obtain ⟨hid, hrender⟩ := hfirst
      refine ⟨tree, rfl, hid, ?_, tree', rfl, hsecond, ?_⟩
      · revert hrender
        cases Tree.render _ tree <;> simp
      · intro h
        rw [h] at hsecond
        cases tree with
        | leaf lit => simp [Tree.id?] at hid
        | node id args => simp [Tree.number?] at hsecond

end Parser

namespace Calculator.Session

theorem parse_eq_ok {t : Table Op} {source : String} {tree : Tree Op} :
    ((ofTable t).parse source).1 = .ok tree ↔
      ∃ ts, Token.scan t.signs source = .ok ts ∧
        ((Parser.ofTable t).parse ts.toArray).1 = .ok tree := by
  simp only [parse, tokens, table, ofTable, show (Parser.ofTable t).table = t from rfl]
  cases Token.scan t.signs source with
  | error e => simp [Except.mapError]
  | ok ts =>
    simp only [Except.mapError, Except.ok.injEq, exists_eq_left']
    cases ((Parser.ofTable t).parse ts.toArray).1 <;> simp

theorem ofLevels_product :
    Table.ofLevels [⟨"product", .left, [⟨Op.mul, .chain, [.sign "e", .hole none]⟩]⟩] =
      .ok ⟨[("product", .left)],
        [⟨⟨Op.mul, .chain, [.sign "e", .hole none]⟩, 0, .left, 0, "e", 1, 2, some 0⟩],
        ["e"]⟩ := by
  simp +decide [Table.ofLevels, Table.placed, Table.add, Entry.derive, leadSign, validSign,
    String.any, String.contains_bool_eq, Text.isBlank, Slot.sign?, Slot.isHole, holeLimits,
    addSigns]
  rfl

theorem rescan_cuts_printed_number :
    ∃ t, Table.ofLevels [⟨"product", .left, [⟨Op.mul, .chain, [.sign "e", .hole none]⟩]⟩] = .ok t ∧
      ∃ tok x, Token.scan t.signs "0.0005" = .ok [tok] ∧ tok.value = .number x ∧
        Decimal.source x = "5e-4" ∧
        (Token.scan t.signs (Decimal.source x)).toOption.map (List.map Token.sign?) =
          some [none, some "e", none] := by
  refine ⟨_, ofLevels_product, ?_⟩
  dsimp only
  have hfirst : ((Token.scan ["e"] "0.0005").toOption.map fun ts =>
      ts.map fun tok => tok.number?.map Decimal.source) = some [some "5e-4"] := by
    decide +kernel
  have hsecond : (Token.scan ["e"] "5e-4").toOption.map (List.map Token.sign?) =
      some [none, some "e", none] := by
    decide +kernel
  cases hs : Token.scan ["e"] "0.0005" with
  | error e => rw [hs] at hfirst; cases hfirst
  | ok ts =>
    rw [hs] at hfirst
    rcases ts with _ | ⟨tok, _ | ⟨tok', ts'⟩⟩
    · simp [Except.toOption] at hfirst
    · simp only [Except.toOption, Option.map_some, List.map_cons, List.map_nil, Option.some.injEq,
        List.cons.injEq, and_true] at hfirst
      obtain ⟨x, hx, hsrc⟩ := Option.map_eq_some_iff.mp hfirst
      have hv : tok.value = .number x := by
        unfold Token.number? at hx
        split at hx
        · rename_i y hy
          cases hx
          exact hy
        · cases hx
      exact ⟨tok, x, rfl, hv, hsrc, by rw [hsrc]; exact hsecond⟩
    · simp [Except.toOption] at hfirst

end Calculator.Session

end Mixfix
