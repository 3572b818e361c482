import CellTiming.Proofs.Guards
import CellTiming.Proofs.Horizon

/-! The forms of a path, token by token. A path is accepted in the form of a simple path, in the
form of a path to a group that is closed before the delays, and in that of a group that is closed
behind them, and in no other; its fields are the parts written. A simple path may be written with
an edge, which it keeps. -/
namespace CellTiming

namespace Grammar

open TokenRule

/-- The edge that a word for an edge names. -/
def edgeOf (t : Token) : Edge := if t.kind = .keyword .posedge then .rising else .falling

/-- The text of a source, which is a name or a number as it is rendered. -/
def sourceText (t : Token) : Except SourceError String :=
  match t.kind with
  | .name => .ok t.text
  | .number => (numberOf t).map Number.text
  | _ => .error (unexpectedAt [t])

abbrev TokenOf (kind : Token.Kind) := { t : Token // t.kind = kind }

abbrev SignToken := { t : Token // isSign t = true }

def optionalToken {p : Token → Prop} (found : Option { t : Token // p t }) : List Token :=
  (found.map (·.val)).toList

theorem of_mem_optionalToken {p : Token → Prop} {found : Option { t : Token // p t }} {t : Token}
    (member : t ∈ optionalToken found) : p t := by
  cases found with
  | none => cases member
  | some found =>
    cases List.mem_singleton.mp member
    exact found.property

/-- `( [edge] NAME [+|-] PATH` -/
structure PathLead where
  opening : TokenOf (.symbol .leftParen)
  edge : Option { t : Token // t.isEdge = true }
  input : TokenOf .name
  sign : Option SignToken
  arrow : { t : Token // t.kind.isPath = true }

/-- `(:|+:|-:) source` -/
structure PathSource where
  sign : Option SignToken
  colon : TokenOf (.symbol .colon)
  token : Token
  text : String
  rendered : sourceText token = .ok text

/-- `NAME [(:|+:|-:) source] )` -/
structure OutputGroup where
  output : TokenOf .name
  source : Option PathSource
  closing : TokenOf (.symbol .rightParen)

/-- A path up to its delays. -/
inductive PathHead
  /-- `( [edge] NAME [+|-] PATH NAME ) =` -/
  | simple (lead : PathLead) (output : TokenOf .name) (closing : TokenOf (.symbol .rightParen))
      (assign : TokenOf (.symbol .assign))
  /-- `( [edge] NAME [+|-] PATH ( … ) ) =` -/
  | closed (lead : PathLead) (opening : TokenOf (.symbol .leftParen)) (group : OutputGroup)
      (closing : TokenOf (.symbol .rightParen)) (assign : TokenOf (.symbol .assign))
  /-- `( [edge] NAME [+|-] PATH ( … ) =`, which is closed behind the delays -/
  | open (lead : PathLead) (opening : TokenOf (.symbol .leftParen)) (group : OutputGroup)
      (assign : TokenOf (.symbol .assign))

namespace PathLead

variable (lead : PathLead)

def tokens : List Token :=
  lead.opening.val :: (optionalToken lead.edge ++
    lead.input.val :: (optionalToken lead.sign ++ [lead.arrow.val]))

def edge? : Option Edge := lead.edge.map fun t => edgeOf t.val

end PathLead

namespace PathSource

def tokens (source : PathSource) : List Token :=
  optionalToken source.sign ++ [source.colon.val, source.token]

end PathSource

namespace OutputGroup

variable (group : OutputGroup)

def tokens : List Token := group.output.val :: ((group.source.map (·.tokens)).getD [] ++ [group.closing.val])

/-- The sign before the colon of the source. -/
def sign : List Token := (group.source.map fun source => optionalToken source.sign).getD []

end OutputGroup

namespace PathHead

def tokens : PathHead → List Token
  | simple lead output closing assign => lead.tokens ++ [output.val, closing.val, assign.val]
  | closed lead opening group closing assign =>
    lead.tokens ++ opening.val :: (group.tokens ++ [closing.val, assign.val])
  | .open lead opening group assign => lead.tokens ++ opening.val :: (group.tokens ++ [assign.val])

/-- The symbols behind the delays. -/
def ending : PathHead → List Symbol
  | simple .. | closed .. => [.semicolon]
  | .open .. => [.rightParen, .semicolon]

def lead : PathHead → PathLead
  | simple lead .. | closed lead .. | .open lead .. => lead

def group? : PathHead → Option OutputGroup
  | simple .. => none
  | closed _ _ group .. | .open _ _ group _ => some group

def output : PathHead → Token
  | simple _ output .. => output.val
  | closed _ _ group .. | .open _ _ group _ => group.output.val

/-- The signs before the arrow and before the colon of the source. -/
def signs (head : PathHead) : List Token :=
  optionalToken head.lead.sign ++ (head.group?.map (·.sign)).getD []

/-- The edge as it is written; before a group a rising one unless another is written. -/
def edge? : PathHead → Option Edge
  | simple lead .. => lead.edge?
  | closed lead .. | .open lead .. => some (lead.edge?.getD .rising)

def toPath (head : PathHead) (delays : Transitions) : Path where
  input := head.lead.input.val.text
  output := head.output.text
  edge := head.edge?
  parallel := head.lead.arrow.val.isSymbol .parallelPath
  inverted := head.signs.any (·.isSymbol .minus)
  source := (head.group?.bind (·.source)).map (·.text)
  condition := none
  delays

end PathHead

section Parts

variable {ts rest : List Token}

theorem exists_head_of_any {p : Token → Bool} (found : ts.head?.any p = true) :
    ∃ t tail, ts = t :: tail ∧ p t = true := by
  cases ts with
  | nil => cases found
  | cons t tail => exact ⟨t, tail, rfl, by simpa using found⟩

theorem edge_run {edge : Option Edge} : edge?.run ts = .ok (edge, rest) ↔
    ∃ found : Option { t : Token // t.isEdge = true }, ts = optionalToken found ++ rest ∧
      edge = found.map (fun t => edgeOf t.val) ∧ (found = none → ∀ t ∈ rest.head?, t.isEdge = false) := by
  rw [edge?, Rule.run_bind_ok]
  constructor
  · rintro ⟨rising, middle, head, tail⟩
    rcases eatKeyword_run.mp head with ⟨rfl, t, rfl, kind⟩ | ⟨rfl, rfl, noRise⟩
    · cases tail
      exact ⟨some ⟨t, by simp [Token.isEdge, kind]⟩, rfl, by simp [edgeOf, kind], nofun⟩
    · obtain ⟨falling, last, second, ending⟩ := Rule.run_bind_ok.mp tail
      rcases eatKeyword_run.mp second with ⟨rfl, t, rfl, kind⟩ | ⟨rfl, rfl, noFall⟩
      · cases ending
        exact ⟨some ⟨t, by simp [Token.isEdge, kind]⟩, rfl, by simp [edgeOf, kind], nofun⟩
      · cases ending
        refine ⟨none, rfl, rfl, fun _ t first => ?_⟩
        obtain ⟨more, rfl⟩ := List.head?_eq_some_iff.mp first
        simp [Token.isEdge, noRise t more rfl, noFall t more rfl]
  · rintro ⟨found, rfl, rfl, plain⟩
    cases found with
    | some t =>
      obtain ⟨t, edge⟩ := t
      have kinds : t.kind = .keyword .posedge ∨ t.kind = .keyword .negedge := by
        simpa [Token.isEdge] using edge
      rcases kinds with kind | kind
      · exact ⟨true, rest, eatKeyword_run.mpr (.inl ⟨rfl, t, rfl, kind⟩), by simp [edgeOf, kind]⟩
      · refine ⟨false, t :: rest,
          eatKeyword_run.mpr (.inr ⟨rfl, rfl, notAhead_cons (by simp [kind])⟩), ?_⟩
        rw [if_neg Bool.false_ne_true,
          Rule.run_then (eatKeyword_run.mpr (.inl ⟨rfl, t, rfl, kind⟩))]
        simp [edgeOf, kind]
    | none =>
      have other (keyword : Keyword) (word : keyword = .posedge ∨ keyword = .negedge) :
          NotAhead (.keyword keyword) rest := by
        rintro t more rfl kind
        have := plain rfl t rfl
        rcases word with rfl | rfl <;> simp [Token.isEdge, kind] at this
      refine ⟨false, rest, eatKeyword_run.mpr (.inr ⟨rfl, rfl, other _ (.inl rfl)⟩), ?_⟩
      rw [if_neg Bool.false_ne_true, eatKeyword_skip (other _ (.inr rfl))]
      rfl

/-- The optional sign, and the arrow. -/
theorem signedArrow_run {inverted parallel : Bool} :
    (do return (← arrowPolarity, ← arrow) : TokenRule (Bool × Bool)).run ts =
        .ok ((inverted, parallel), rest) ↔
      ∃ (sign : Option SignToken) (t : { t : Token // t.kind.isPath = true }),
        ts = optionalToken sign ++ t.val :: rest ∧
        inverted = (optionalToken sign).any (·.isSymbol .minus) ∧
        parallel = t.val.isSymbol .parallelPath := by
  rw [Rule.run_bind_ok]
  constructor
  · rintro ⟨negative, middle, polarity, tail⟩
    obtain ⟨_, _, read, made⟩ := Rule.run_bind_ok.mp tail
    cases made
    obtain ⟨t, rfl, kind⟩ := arrow_run.mp read
    have leads : t.kind.isPath = true := by
      rcases kind with ⟨_, kind⟩ | ⟨_, kind⟩ <;> simp [kind, Token.Kind.isPath]
    have same : parallel = t.isSymbol .parallelPath := by
      rcases kind with ⟨rfl, kind⟩ | ⟨rfl, kind⟩ <;> simp [Token.isSymbol, kind]
    cases ts with
    | nil => cases polarity
    | cons first more =>
      by_cases signed : isSign first = true ∧ more.head?.any (·.kind.isPath) = true
      · obtain ⟨sign, found⟩ := signed
        obtain ⟨arrow, others, rfl, path⟩ := exists_head_of_any found
        rw [arrowPolarity_signed sign path] at polarity
        cases polarity
        exact ⟨some ⟨first, sign⟩, ⟨t, leads⟩, rfl, by simp [optionalToken], same⟩
      · rw [arrowPolarity_unsigned signed] at polarity
        cases polarity
        exact ⟨none, ⟨t, leads⟩, rfl, rfl, same⟩
  · rintro ⟨sign, ⟨t, leads⟩, rfl, rfl, rfl⟩
    have kind : t.kind = .symbol .parallelPath ∨ t.kind = .symbol .fullPath := by
      simpa [Token.Kind.isPath] using leads
    have read : arrow.run (t :: rest) = .ok (t.isSymbol .parallelPath, rest) := by
      refine arrow_run.mpr ⟨t, rfl, ?_⟩
      rcases kind with kind | kind <;> simp [Token.isSymbol, kind]
    refine ⟨_, t :: rest, ?_, Rule.run_then read⟩
    cases sign with
    | none => exact arrowPolarity_leads leads
    | some sign =>
      obtain ⟨sign, signed⟩ := sign
      simpa [optionalToken] using arrowPolarity_signed signed leads

theorem dataSource_cons (t : Token) (rest : List Token) :
    dataSource.run (t :: rest) = (sourceText t).map (·, rest) := by
  have ahead : kind.run (t :: rest) = .ok (t.kind, t :: rest) := rfl
  rw [dataSource, Rule.run_then ahead, sourceText]
  cases kind : t.kind with
  | name => exact name_run.mpr ⟨t, rfl, kind, rfl⟩
  | number =>
    dsimp only
    rw [number, bind_assoc, Rule.run_then (take_run.mpr ⟨rfl, kind⟩)]
    cases numberOf t <;> rfl
  | _ => rfl

theorem dataSource_run {text : String} : dataSource.run ts = .ok (text, rest) ↔
    ∃ t, ts = t :: rest ∧ sourceText t = .ok text := by
  cases ts with
  | nil => exact ⟨nofun, nofun⟩
  | cons t more =>
    rw [dataSource_cons]
    cases meaning : sourceText t with
    | error e =>
      refine ⟨nofun, ?_⟩
      rintro ⟨_, ⟨⟩, found⟩
      cases meaning.symm.trans found
    | ok read =>
      constructor
      · rintro ⟨⟩
        exact ⟨t, rfl, meaning⟩
      · rintro ⟨_, ⟨⟩, found⟩
        cases meaning.symm.trans found
        rfl

theorem sourceFrom_run {negative inverted : Bool} {text : Option String} :
    (sourceFrom negative).run ts = .ok ((inverted, text), rest) ↔ ∃ colon t read,
      ts = colon :: t :: rest ∧ colon.kind = .symbol .colon ∧ sourceText t = .ok read ∧
        inverted = negative ∧ text = some read := by
  rw [sourceFrom, Rule.run_bind_ok]
  constructor
  · rintro ⟨_, _, head, tail⟩
    obtain ⟨colon, rfl, kind⟩ := expect_run.mp head
    obtain ⟨read, _, source, made⟩ := Rule.run_bind_ok.mp tail
    cases made
    obtain ⟨t, rfl, rendered⟩ := dataSource_run.mp source
    exact ⟨colon, t, read, rfl, kind, rendered, rfl, rfl⟩
  · rintro ⟨colon, t, read, rfl, kind, rendered, rfl, rfl⟩
    refine ⟨(), t :: rest, expect_run.mpr ⟨colon, rfl, kind⟩, ?_⟩
    rw [Rule.run_then (dataSource_run.mpr ⟨t, rfl, rendered⟩)]
    rfl

theorem source_of_clause {inverted : Bool} {text : Option String}
    (clause : sourceClause.run ts = .ok ((inverted, text), rest)) :
    ∃ source : Option PathSource, ts = (source.map (·.tokens)).getD [] ++ rest ∧
      inverted = ((source.map fun source => optionalToken source.sign).getD []).any
        (·.isSymbol .minus) ∧
      text = source.map (·.text) := by
  cases ts with
  | nil => cases clause
  | cons t more =>
    by_cases ends : t.kind = .symbol .rightParen
    · rw [sourceClause_none ends] at clause
      cases clause
      exact ⟨none, rfl, rfl, rfl⟩
    · by_cases signed : isSign t = true ∧ more.head?.any (·.isSymbol .colon) = true
      · obtain ⟨sign, found⟩ := signed
        obtain ⟨colon, others, rfl, kind⟩ := exists_head_of_any found
        replace kind : colon.kind = .symbol .colon := by simpa [Token.isSymbol] using kind
        rw [sourceClause_signed sign kind] at clause
        obtain ⟨_, token, read, same, _, rendered, rfl, rfl⟩ := sourceFrom_run.mp clause
        obtain ⟨rfl, rfl⟩ := List.cons.inj same
        exact ⟨some ⟨some ⟨t, sign⟩, ⟨colon, kind⟩, token, read, rendered⟩, rfl,
          by simp [optionalToken], rfl⟩
      · rw [sourceClause_unsigned ends signed] at clause
        obtain ⟨colon, token, read, same, kind, rendered, rfl, rfl⟩ := sourceFrom_run.mp clause
        rw [same]
        exact ⟨some ⟨none, ⟨colon, kind⟩, token, read, rendered⟩, rfl, rfl, rfl⟩

theorem sourceClause_written (source : Option PathSource) {closing : Token}
    (closes : closing.kind = .symbol .rightParen) :
    sourceClause.run ((source.map (·.tokens)).getD [] ++ closing :: rest) =
      .ok ((((source.map fun source => optionalToken source.sign).getD []).any
        (·.isSymbol .minus), source.map (·.text)), closing :: rest) := by
  cases source with
  | none => exact sourceClause_none closes
  | some source =>
    obtain ⟨sign, ⟨colon, kind⟩, token, read, rendered⟩ := source
    cases sign with
    | none =>
      refine (sourceClause_unsigned (t := colon) (by simp [kind]) ?_).trans
        (sourceFrom_run.mpr ⟨colon, token, read, rfl, kind, rendered, rfl, rfl⟩)
      rintro ⟨sign, _⟩
      rcases sign_cases sign with other | other <;> simp [kind] at other
    | some sign =>
      obtain ⟨sign, signed⟩ := sign
      refine (sourceClause_signed signed kind).trans
        (sourceFrom_run.mpr ⟨colon, token, read, rfl, kind, rendered, ?_, rfl⟩)
      simp [optionalToken]

/-- The source of a group, and the parenthesis that closes the group. -/
theorem source_run {inverted : Bool} {text : Option String} :
    (do
      let found ← sourceClause
      expect .rightParen
      return found : TokenRule (Bool × Option String)).run ts = .ok ((inverted, text), rest) ↔
      ∃ (source : Option PathSource) (closing : TokenOf (.symbol .rightParen)),
        ts = (source.map (·.tokens)).getD [] ++ closing.val :: rest ∧
        inverted = ((source.map fun source => optionalToken source.sign).getD []).any
          (·.isSymbol .minus) ∧
        text = source.map (·.text) := by
  rw [Rule.run_bind_ok]
  constructor
  · rintro ⟨found, middle, clause, tail⟩
    obtain ⟨_, _, closed, made⟩ := Rule.run_bind_ok.mp tail
    cases made
    obtain ⟨closing, rfl, closes⟩ := expect_run.mp closed
    obtain ⟨source, same⟩ := source_of_clause clause
    exact ⟨source, ⟨closing, closes⟩, same⟩
  · rintro ⟨source, ⟨closing, closes⟩, rfl, rfl, rfl⟩
    exact ⟨_, closing :: rest, sourceClause_written source closes, expect_then closes⟩

/-- What a path is up to its arrow: its edge, its input and whether the sign inverts. -/
def pathLead : TokenRule (Option Edge × String × Bool × Bool) := do
  expect .leftParen
  let edge ← edge?
  let input ← name
  let (inverted, parallel) ← (do return (← arrowPolarity, ← arrow) : TokenRule (Bool × Bool))
  return (edge, input, inverted, parallel)

theorem pathLead_run {edge : Option Edge} {input : String} {inverted parallel : Bool} :
    pathLead.run ts = .ok ((edge, input, inverted, parallel), rest) ↔
      ∃ lead : PathLead, ts = lead.tokens ++ rest ∧ edge = lead.edge? ∧
        input = lead.input.val.text ∧
        inverted = (optionalToken lead.sign).any (·.isSymbol .minus) ∧
        parallel = lead.arrow.val.isSymbol .parallelPath := by
  constructor
  · intro ok
    obtain ⟨_, _, head, tail⟩ := Rule.run_bind_ok.mp ok
    obtain ⟨opening, rfl, opens⟩ := expect_run.mp head
    obtain ⟨_, _, edged, tail⟩ := Rule.run_bind_ok.mp tail
    obtain ⟨edge, rfl, rfl, _⟩ := edge_run.mp edged
    obtain ⟨_, _, first, tail⟩ := Rule.run_bind_ok.mp tail
    obtain ⟨input, rfl, named, rfl⟩ := name_run.mp first
    obtain ⟨⟨_, _⟩, _, second, made⟩ := Rule.run_bind_ok.mp tail
    cases made
    obtain ⟨sign, arrow, rfl, rfl, rfl⟩ := signedArrow_run.mp second
    exact ⟨⟨⟨opening, opens⟩, edge, ⟨input, named⟩, sign, arrow⟩, by simp [PathLead.tokens], rfl,
      rfl, rfl, rfl⟩
  · rintro ⟨⟨⟨opening, opens⟩, edge, ⟨input, named⟩, sign, arrow⟩, rfl, rfl, rfl, rfl, rfl⟩
    have plain : input.isEdge = false := by simp [Token.isEdge, named]
    have edged : edge?.run (optionalToken edge ++ input :: (optionalToken sign ++ arrow.val :: rest)) =
        .ok (_, input :: (optionalToken sign ++ arrow.val :: rest)) :=
      edge_run.mpr ⟨edge, rfl, rfl, fun _ => by simpa using plain⟩
    simp only [PathLead.tokens, List.cons_append, List.append_assoc, List.nil_append]
    rw [pathLead, expect_then opens, Rule.run_then edged, name_then named,
      Rule.run_then (signedArrow_run.mpr ⟨sign, arrow, rfl, rfl, rfl⟩)]
    rfl

/-- The output of a group and its source, through the parenthesis that closes the group. -/
def outputGroup : TokenRule (String × Bool × Option String) := do
  let output ← name
  let (inverted, source) ← (do
    let found ← sourceClause
    expect .rightParen
    return found : TokenRule (Bool × Option String))
  return (output, inverted, source)

theorem outputGroup_run {output : String} {inverted : Bool} {source : Option String} :
    outputGroup.run ts = .ok ((output, inverted, source), rest) ↔
      ∃ group : OutputGroup, ts = group.tokens ++ rest ∧ output = group.output.val.text ∧
        inverted = group.sign.any (·.isSymbol .minus) ∧ source = group.source.map (·.text) := by
  constructor
  · intro ok
    obtain ⟨_, _, first, tail⟩ := Rule.run_bind_ok.mp ok
    obtain ⟨output, rfl, named, rfl⟩ := name_run.mp first
    obtain ⟨⟨_, _⟩, _, second, made⟩ := Rule.run_bind_ok.mp tail
    cases made
    obtain ⟨source, closing, rfl, rfl, rfl⟩ := source_run.mp second
    exact ⟨⟨⟨output, named⟩, source, closing⟩, by simp [OutputGroup.tokens], rfl, rfl, rfl⟩
  · rintro ⟨⟨⟨output, named⟩, source, closing⟩, rfl, rfl, rfl, rfl⟩
    simp only [OutputGroup.tokens, List.cons_append, List.append_assoc, List.nil_append]
    rw [outputGroup, name_then named,
      Rule.run_then (source_run.mpr ⟨source, closing, rfl, rfl, rfl⟩)]
    rfl

end Parts

variable (table : Specparams)

/-- What follows the arrow of a path, through the semicolon. -/
def pathBehind (lead : Option Edge × String × Bool × Bool) : TokenRule Path := do
  let (edge, input, inverted, parallel) := lead
  if ← eat .leftParen then
    let (output, sourceInverted, source) ← outputGroup
    let delays ← groupedDelays table
    expect .semicolon
    return {
      input, output, edge := some (edge.getD .rising), parallel
      inverted := inverted || sourceInverted, source, condition := none, delays }
  else
    let output ← name
    expect .rightParen
    expect .assign
    let delays ← delayList table
    expect .semicolon
    return {
      input, output, edge, parallel, inverted, source := none, condition := none, delays }

theorem path_eq : path table = pathLead >>= pathBehind table := by
  simp only [path, pathBody, pathLead, pathBehind, outputGroup, bind_assoc, pure_bind]

def expects : List Symbol → TokenRule Unit
  | [] => return ()
  | symbol :: more => do
    expect symbol
    expects more

/-- What follows the head of a path. -/
def PathHead.behind (head : PathHead) : TokenRule Path := do
  let delays ← delayList table
  expects head.ending
  return head.toPath delays

variable {table} {ts rest : List Token}

theorem PathHead.run (head : PathHead) :
    (path table).run (head.tokens ++ ts) = (head.behind table).run ts := by
  have lead (lead : PathLead) (ts : List Token) : pathLead.run (lead.tokens ++ ts) = .ok (_, ts) :=
    pathLead_run.mpr ⟨lead, rfl, rfl, rfl, rfl, rfl⟩
  have group (group : OutputGroup) (ts : List Token) :
      outputGroup.run (group.tokens ++ ts) = .ok (_, ts) :=
    outputGroup_run.mpr ⟨group, rfl, rfl, rfl, rfl⟩
  rw [path_eq]
  cases head with
  | simple first output closing assign =>
    have noGroup : NotAhead (.symbol .leftParen) (output.val :: closing.val :: assign.val :: ts) :=
      notAhead_cons (by simp [output.property])
    simp only [tokens, List.append_assoc, List.cons_append, List.nil_append]
    rw [Rule.run_then (lead first _), pathBehind, eat_skip noGroup, if_neg Bool.false_ne_true,
      name_then output.property, expect_then closing.property, expect_then assign.property]
    simp [behind, ending, expects, toPath, signs, PathHead.lead, group?, PathHead.output, edge?]
  | closed first opening second closing assign =>
    simp only [tokens, List.append_assoc, List.cons_append, List.nil_append]
    rw [Rule.run_then (lead first _), pathBehind, eat_then opening.property, if_pos rfl,
      Rule.run_then (group second _)]
    dsimp only
    rw [groupedDelays, bind_assoc, eat_then closing.property,
      if_pos rfl, bind_assoc, expect_then assign.property]
    simp [behind, ending, expects, toPath, signs, PathHead.lead, group?, PathHead.output, edge?]
  | «open» first opening second assign =>
    have notClosed : NotAhead (.symbol .rightParen) (assign.val :: ts) :=
      notAhead_cons (by simp [assign.property])
    simp only [tokens, List.append_assoc, List.cons_append, List.nil_append]
    rw [Rule.run_then (lead first _), pathBehind, eat_then opening.property, if_pos rfl,
      Rule.run_then (group second _)]
    dsimp only
    rw [groupedDelays, bind_assoc, eat_skip notClosed,
      if_neg Bool.false_ne_true, bind_assoc, expect_then assign.property]
    simp [behind, ending, expects, toPath, signs, PathHead.lead, group?, PathHead.output, edge?]

/-- What is accepted as a path is read behind a head of one of the forms. -/
theorem path_run {p : Path} : (path table).run ts = .ok (p, rest) ↔
    ∃ (head : PathHead) (more : List Token), ts = head.tokens ++ more ∧
      (head.behind table).run more = .ok (p, rest) := by
  constructor
  · intro ok
    have found : ∃ (head : PathHead) (more : List Token), ts = head.tokens ++ more := by
      rw [path_eq] at ok
      obtain ⟨⟨_, _, _, _⟩, _, first, behind⟩ := Rule.run_bind_ok.mp ok
      obtain ⟨lead, rfl, rfl, rfl, rfl, rfl⟩ := pathLead_run.mp first
      obtain ⟨_, _, eaten, branch⟩ := Rule.run_bind_ok.mp behind
      rcases eat_run.mp eaten with ⟨rfl, opening, rfl, opens⟩ | ⟨rfl, rfl, _⟩
      · obtain ⟨⟨_, _, _⟩, _, inside, after⟩ := Rule.run_bind_ok.mp branch
        obtain ⟨group, rfl, rfl, rfl, rfl⟩ := outputGroup_run.mp inside
        obtain ⟨_, _, grouped, _⟩ := Rule.run_bind_ok.mp after
        obtain ⟨_, _, early, delays⟩ := Rule.run_bind_ok.mp grouped
        rcases eat_run.mp early with ⟨rfl, closing, rfl, closes⟩ | ⟨rfl, rfl, _⟩
        · obtain ⟨_, more, sign, _⟩ := Rule.run_bind_ok.mp delays
          obtain ⟨assign, rfl, assigns⟩ := expect_run.mp sign
          exact ⟨.closed lead ⟨opening, opens⟩ group ⟨closing, closes⟩ ⟨assign, assigns⟩, more,
            by simp [PathHead.tokens]⟩
        · obtain ⟨_, more, sign, _⟩ := Rule.run_bind_ok.mp delays
          obtain ⟨assign, rfl, assigns⟩ := expect_run.mp sign
          exact ⟨.open lead ⟨opening, opens⟩ group ⟨assign, assigns⟩, more,
            by simp [PathHead.tokens]⟩
      · obtain ⟨_, _, second, afterOutput⟩ := Rule.run_bind_ok.mp branch
        obtain ⟨output, rfl, named, rfl⟩ := name_run.mp second
        obtain ⟨_, _, third, afterClosing⟩ := Rule.run_bind_ok.mp afterOutput
        obtain ⟨closing, rfl, closes⟩ := expect_run.mp third
        obtain ⟨_, more, sign, _⟩ := Rule.run_bind_ok.mp afterClosing
        obtain ⟨assign, rfl, assigns⟩ := expect_run.mp sign
        exact ⟨.simple lead ⟨output, named⟩ ⟨closing, closes⟩ ⟨assign, assigns⟩, more,
          by simp [PathHead.tokens]⟩
    obtain ⟨head, more, rfl⟩ := found
    exact ⟨head, more, rfl, head.run.symm.trans ok⟩
  · rintro ⟨head, more, rfl, ok⟩
    exact head.run.trans ok

theorem expects_run {symbols : List Symbol} {value : Unit} :
    (expects symbols).run ts = .ok (value, rest) ↔
      ∃ ending : List Token, ts = ending ++ rest ∧
        ending.map (·.kind) = symbols.map Token.Kind.symbol := by
  induction symbols generalizing ts with
  | nil =>
    constructor
    · rintro ⟨⟩
      exact ⟨[], rfl, rfl⟩
    · rintro ⟨ending, rfl, same⟩
      cases List.map_eq_nil_iff.mp same
      rfl
  | cons symbol symbols ih =>
    rw [expects, Rule.run_bind_ok]
    constructor
    · rintro ⟨_, _, head, tail⟩
      obtain ⟨t, rfl, kind⟩ := expect_run.mp head
      obtain ⟨ending, rfl, same⟩ := ih.mp tail
      exact ⟨t :: ending, rfl, by simp [kind, same]⟩
    · rintro ⟨ending, rfl, same⟩
      obtain ⟨t, more, rfl, kind, others⟩ := List.map_eq_cons_iff.mp same
      exact ⟨(), _, expect_run.mpr ⟨t, rfl, kind⟩, ih.mpr ⟨more, rfl, others⟩⟩

/-- A path with its delays and the symbols behind them. -/
structure PathForm (table : Specparams) where
  head : PathHead
  delays : List Token
  ending : List Token
  value : Transitions
  closes : ending.map (·.kind) = head.ending.map Token.Kind.symbol
  reads : ∀ rest, (delayList table).run (delays ++ (ending ++ rest)) = .ok (value, ending ++ rest)

namespace PathForm

variable (form : PathForm table)

def tokens : List Token := form.head.tokens ++ (form.delays ++ form.ending)

def toPath : Path := form.head.toPath form.value

/-- The form is documented; a simple path is so without an edge only. -/
def Documented : Prop :=
  match form.head with
  | .simple lead .. => lead.edge = none
  | .closed .. | .open .. => True

end PathForm

theorem path_forms_run {p : Path} : (path table).run ts = .ok (p, rest) ↔
    ∃ form : PathForm table, ts = form.tokens ++ rest ∧ p = form.toPath := by
  rw [path_run]
  constructor
  · rintro ⟨head, more, rfl, ok⟩
    obtain ⟨value, _, list, tail⟩ := Rule.run_bind_ok.mp ok
    obtain ⟨_, _, last, made⟩ := Rule.run_bind_ok.mp tail
    cases made
    obtain ⟨ending, rfl, closes⟩ := expects_run.mp last
    obtain ⟨delays, rfl, again⟩ := local_delayList table _ _ _ list
    have alike (rest' : List Token) : (ending ++ rest').head? = (ending ++ rest).head? := by
      cases ending with
      | nil => cases head <;> cases closes
      | cons => rfl
    refine ⟨⟨head, delays, ending, value, closes, fun rest' => again _ (alike rest')⟩, ?_, rfl⟩
    simp [PathForm.tokens]
  · rintro ⟨⟨head, delays, ending, value, closes, reads⟩, rfl, rfl⟩
    refine ⟨head, delays ++ (ending ++ rest), by simp [PathForm.tokens], ?_⟩
    have last : (expects head.ending).run (ending ++ rest) = .ok ((), rest) :=
      expects_run.mpr ⟨ending, rfl, closes⟩
    rw [PathHead.behind, Rule.run_then (reads rest), Rule.run_then last]
    rfl

/-- An edge behind the opening parenthesis, and a name behind the arrow. -/
def EdgedSimple (ts : List Token) : Prop :=
  (∃ t ∈ ts[1]?, t.isEdge = true) ∧
    ∃ t ∈ (ts.dropWhile fun t => !t.kind.isPath)[1]?, t.kind = .name

theorem PathLead.dropWhile_tokens (lead : PathLead) (rest : List Token) :
    (lead.tokens ++ rest).dropWhile (fun t => !t.kind.isPath) = lead.arrow.val :: rest := by
  obtain ⟨⟨opening, opens⟩, edge, ⟨input, named⟩, sign, ⟨arrow, leads⟩⟩ := lead
  have before : ∀ t ∈ opening :: (optionalToken edge ++ input :: optionalToken sign),
      (!t.kind.isPath) = true := by
    intro t member
    simp only [List.mem_cons, List.mem_append] at member
    rcases member with rfl | inEdge | rfl | inSign
    · simp [opens, Token.Kind.isPath]
    · have kinds : t.kind = .keyword .posedge ∨ t.kind = .keyword .negedge := by
        simpa [Token.isEdge] using of_mem_optionalToken inEdge
      rcases kinds with kind | kind <;> simp [kind, Token.Kind.isPath]
    · simp [named, Token.Kind.isPath]
    · rcases sign_cases (of_mem_optionalToken inSign) with kind | kind <;>
        simp [kind, Token.Kind.isPath]
  have shape : tokens ⟨⟨opening, opens⟩, edge, ⟨input, named⟩, sign, ⟨arrow, leads⟩⟩ ++ rest =
      opening :: (optionalToken edge ++ input :: optionalToken sign) ++ arrow :: rest := by
    simp [tokens]
  rw [shape, List.dropWhile_append_of_pos before]
  simp [leads]

theorem PathForm.documented_iff (form : PathForm table) (rest : List Token) :
    form.Documented ↔ ¬EdgedSimple (form.tokens ++ rest) := by
  obtain ⟨head, delays, ending, value, closes, reads⟩ := form
  rw [EdgedSimple, tokens, List.append_assoc]
  cases head with
  | simple lead output closing assign =>
    rw [PathHead.tokens, List.append_assoc, lead.dropWhile_tokens]
    obtain ⟨opening, edge, ⟨input, named⟩, sign, arrow⟩ := lead
    cases edge with
    | none =>
      simp [Documented, PathLead.tokens, optionalToken, Token.isEdge, named]
    | some edge =>
      simp [Documented, PathLead.tokens, optionalToken, edge.property, output.property]
  | closed lead opening group closing assign =>
    rw [PathHead.tokens, List.append_assoc, lead.dropWhile_tokens]
    simp [Documented, opening.property]
  | «open» lead opening group assign =>
    rw [PathHead.tokens, List.append_assoc, lead.dropWhile_tokens]
    simp [Documented, opening.property]

instance (ts : List Token) : Decidable (EdgedSimple ts) := inferInstanceAs (Decidable (_ ∧ _))

/-- Exactly the three forms are accepted, with the parts written as the fields of the path. An
accepted path has a documented form unless it is a simple path with an edge. -/
theorem path_forms (table : Specparams) (ts rest : List Token) (p : Path) :
    ((path table).run ts = .ok (p, rest) ↔
      ∃ form : PathForm table, ts = form.tokens ++ rest ∧ p = form.toPath) ∧
    ((path table).run ts = .ok (p, rest) →
      ((∃ form : PathForm table, form.Documented ∧ ts = form.tokens ++ rest ∧ p = form.toPath) ↔
        ¬EdgedSimple ts)) := by
  refine ⟨path_forms_run, fun ok => ⟨?_, fun plain => ?_⟩⟩
  · rintro ⟨form, documented, rfl, -⟩
    exact (form.documented_iff rest).mp documented
  · obtain ⟨form, rfl, made⟩ := path_forms_run.mp ok
    exact ⟨form, (form.documented_iff rest).mpr plain, rfl, made⟩

theorem path_forms_sourced : ∃ ts p rest,
    Token.ofString "(negedge CK - => (Q +: D)) = 1;" = .ok ts ∧
      (path []).run ts = .ok (p, rest) ∧
      p.edge = some .falling ∧ p.inverted = true ∧ p.source = some "D" ∧
      ∃ form : PathForm [], form.Documented ∧ ts = form.tokens ++ rest ∧ p = form.toPath := by
  have read : (Token.ofString "(negedge CK - => (Q +: D)) = 1;").toOption.map (fun ts =>
      (((path []).run ts).toOption.map fun found =>
        (found.1.edge, found.1.inverted, found.1.source), decide (EdgedSimple ts))) =
      some (some (some .falling, true, some "D"), false) := by decide +kernel
  obtain ⟨ts, lexed, same⟩ := exists_ok_of_toOption read
  obtain ⟨run, plain⟩ := Prod.mk.inj same
  obtain ⟨⟨p, rest⟩, ok, fields⟩ := exists_ok_of_toOption run
  obtain ⟨edge, inverted, source⟩ : p.edge = _ ∧ p.inverted = _ ∧ p.source = _ := by
    simpa using fields
  exact ⟨ts, p, rest, lexed, ok, edge, inverted, source,
    ((path_forms [] ts rest p).2 ok).mpr (of_decide_eq_false plain)⟩

/-- A simple path with an edge is accepted, keeps the edge, and has no documented form. -/
theorem simple_path_edged : ∃ ts p rest,
    Token.ofString "(posedge A => Y) = 1;" = .ok ts ∧ (path []).run ts = .ok (p, rest) ∧
      p.edge = some .rising ∧
      ¬∃ form : PathForm [], form.Documented ∧ ts = form.tokens ++ rest := by
  have read : (Token.ofString "(posedge A => Y) = 1;").toOption.map (fun ts =>
      (((path []).run ts).toOption.map fun found => found.1.edge, decide (EdgedSimple ts))) =
      some (some (some .rising), true) := by decide +kernel
  obtain ⟨ts, lexed, same⟩ := exists_ok_of_toOption read
  obtain ⟨run, edged⟩ := Prod.mk.inj same
  obtain ⟨⟨p, rest⟩, ok, edge⟩ := exists_ok_of_toOption run
  refine ⟨ts, p, rest, lexed, ok, edge, ?_⟩
  rintro ⟨form, documented, rfl⟩
  exact (form.documented_iff rest).mp documented (of_decide_eq_true edged)

end Grammar

end CellTiming
