import CellTiming.Proofs.Arguments
import CellTiming.Proofs.Splice

/-! The text of a call. It is cut into words by itself, and so is each of its arguments, so the
arguments have the same words in any other call. -/
namespace CellTiming

/-- A call with some text behind its name and before its semicolon. -/
def CheckTask.call (task : CheckTask) (gap : String) (arguments : List String) (gap' : String) :
    String :=
  "$" ++ task.spelling ++ gap ++ "(" ++ ",".intercalate arguments ++ ")" ++ gap' ++ ";"

def callWords (task : CheckTask) (arguments : List (List Word)) : List Word :=
  taskWord task :: symbolWord .leftParen :: (listed (symbolWord .comma) arguments ++
    [symbolWord .rightParen, symbolWord .semicolon])

theorem ofWords_callWords (task : CheckTask) (arguments : List (List Word)) :
    ofWords (callWords task arguments) = Grammar.callTokens task (arguments.map ofWords) := by
  simp only [ofWords, callWords, List.map_cons, List.map_append, map_listed]
  rfl

namespace Token

section Calls

variable {start : Bool} {text gap gap' rest : List Char} {texts : List (List Char)} {ws : List Word}
  {betweens : List (List Word)}

theorem leads_task (task : CheckTask) (start : Bool)
    (severed : Severed ('$' :: task.spelling.toList) rest) :
    Leads start ('$' :: task.spelling.toList ++ rest) [taskWord task] true rest := by
  have found : lexeme start '$' task.spelling.toList =
      .ok ⟨.task task, task.spelling.toList.length⟩ := by
    cases task <;> cases start <;> decide
  have word : taskWord task = (.task task, String.ofList ('$' :: task.spelling.toList)) := by
    cases task <;> rfl
  rw [word]
  exact leads_severed severed nofun found

theorem leads_opening (task : CheckTask) (blank : ∀ c ∈ gap, isBlank c = true) (start : Bool)
    (rest : List Char) :
    Leads start ('$' :: task.spelling.toList ++ (gap ++ '(' :: rest))
      [taskWord task, symbolWord .leftParen] true rest := by
  have follows : Follows (gap ++ '(' :: rest) := (follows_cons rfl rest).append_gap blank
  exact (leads_task task start (follows.severed _)).trans
    ((leads_gap blank true _).trans (leads_symbol (.inl rfl) rfl (by simp)))

/-- The words of the text of an argument. -/
def Argued (text : List Char) (between : List Word) : Prop := ∃ stop, Part true text between stop

theorem follows_further (texts : List (List Char)) (rest : List Char) :
    Follows (further ',' texts ++ ')' :: rest) := by
  cases texts with
  | nil => exact follows_cons rfl rest
  | cons text texts =>
    rw [further_cons]
    exact follows_cons rfl _

theorem leads_comma (start : Bool) (rest : List Char) :
    Leads start (',' :: rest) [symbolWord .comma] true rest :=
  leads_symbol (.inl rfl) rfl (by simp)

theorem argued_further (plain : ∀ text ∈ texts, '"' ∉ text)
    (ok : lexed start (further ',' texts ++ ')' :: rest) = .ok ws) :
    ∃ betweens, List.Forall₂ Argued texts betweens := by
  induction texts generalizing start ws with
  | nil => exact ⟨[], .nil⟩
  | cons text texts ih =>
    obtain ⟨first, others⟩ := List.forall_mem_cons.mp plain
    rw [further_cons, List.cons_append, List.append_assoc] at ok
    obtain ⟨_, ok, _⟩ := (leads_comma start _).behind ok
    have severed : Severed text (further ',' texts ++ ')' :: rest) :=
      (follows_further texts rest).severed text
    obtain ⟨between, stop, part⟩ := part_of_lexed severed (inString_plain first) ok
    obtain ⟨_, ok, _⟩ := (part.leads _ severed).behind ok
    obtain ⟨betweens, parts⟩ := ih others ok
    exact ⟨between :: betweens, .cons ⟨stop, part⟩ parts⟩

theorem argued_listed (plain : ∀ text ∈ texts, '"' ∉ text)
    (ok : lexed true (listed ',' texts ++ ')' :: rest) = .ok ws) :
    ∃ betweens, List.Forall₂ Argued texts betweens := by
  cases texts with
  | nil => exact ⟨[], .nil⟩
  | cons text texts =>
    -- a comma in front of the first argument makes no difference
    have comma : Leads true (further ',' (text :: texts) ++ ')' :: rest) [symbolWord .comma] true
        (listed ',' (text :: texts) ++ ')' :: rest) := by
      rw [further_cons, listed_cons]
      exact leads_comma true _
    have cut : lexed true (further ',' (text :: texts) ++ ')' :: rest) =
        .ok (symbolWord .comma :: ws) := by
      rw [lexed_of_leads comma, ok]
      rfl
    exact argued_further plain cut

theorem leads_further (parts : List.Forall₂ Argued texts betweens) (start : Bool)
    (rest : List Char) : Leads start (further ',' texts ++ ')' :: rest)
      (further (symbolWord .comma) betweens ++ [symbolWord .rightParen]) false rest := by
  induction parts generalizing start with
  | nil => exact leads_symbol (.inl rfl) rfl (by simp)
  | @cons text between texts betweens part _ ih =>
    obtain ⟨stop, part⟩ := part
    have argument := part.leads _ ((follows_further texts rest).severed text)
    rw [further_cons, further_cons, List.cons_append, List.append_assoc, List.cons_append,
      List.append_assoc]
    exact (leads_comma start _).trans (argument.trans (ih stop))

theorem leads_listed (parts : List.Forall₂ Argued texts betweens) (rest : List Char) :
    Leads true (listed ',' texts ++ ')' :: rest)
      (listed (symbolWord .comma) betweens ++ [symbolWord .rightParen]) false rest := by
  cases parts with
  | nil => exact leads_symbol (.inl rfl) rfl (by simp)
  | @cons text between texts betweens part parts =>
    obtain ⟨stop, part⟩ := part
    rw [listed_cons, listed_cons, List.append_assoc, List.append_assoc]
    exact (part.leads _ ((follows_further texts rest).severed text)).trans
      (leads_further parts stop rest)

theorem leads_closing (blank : ∀ c ∈ gap, isBlank c = true) (rest : List Char) :
    Leads false (gap ++ ';' :: rest) [symbolWord .semicolon] true rest :=
  (leads_gap blank false _).trans (leads_symbol (.inl rfl) rfl (by simp))

end Calls

section Written

variable {task : CheckTask} {gap gap' : String} {arguments : List String} {rest : List Char}
  {betweens : List (List Word)}

theorem call_append (task : CheckTask) (gap : String) (arguments : List String) (gap' : String)
    (rest : List Char) : (task.call gap arguments gap').toList ++ rest =
      '$' :: task.spelling.toList ++ (gap.toList ++ '(' ::
        (listed ',' (arguments.map String.toList) ++ ')' :: (gap'.toList ++ ';' :: rest))) := by
  simp [CheckTask.call, listed, String.toList_intercalate]

theorem head_call : (task.call gap arguments gap').toList.head? = some '$' := by
  simp [CheckTask.call]

theorem leads_call (blank : ∀ c ∈ gap.toList, isBlank c = true)
    (blank' : ∀ c ∈ gap'.toList, isBlank c = true)
    (parts : List.Forall₂ Argued (arguments.map String.toList) betweens) (start : Bool)
    (rest : List Char) :
    Leads start ((task.call gap arguments gap').toList ++ rest) (callWords task betweens) true
      rest := by
  rw [call_append]
  have whole := (leads_opening task blank start _).trans
    ((leads_listed parts _).trans (leads_closing blank' rest))
  simpa [callWords] using whole

end Written

section Kinds

variable {start stop : Bool} {text rest : List Char} {between ws : List Word} {symbol : Symbol}
  {c : Char}

theorem Part.absent (part : Part start text between stop)
    (spelled : symbol.spelling.toList = [c]) (absent : c ∉ text) :
    ∀ t ∈ ofWords between, t.kind ≠ .symbol symbol := by
  intro t member kind
  obtain ⟨word, known, rfl⟩ := List.mem_map.mp member
  have own := part.own word known
  have inside := own.within
  rw [own.spelled symbol kind, spelled] at inside
  exact absent (inside List.mem_cons_self)

theorem Argued.piece (argued : Argued text between) (comma : ',' ∉ text) (semicolon : ';' ∉ text) :
    Piece (ofWords between) := by
  obtain ⟨stop, part⟩ := argued
  exact fun t member => ⟨part.absent rfl comma t member, part.absent rfl semicolon t member⟩

theorem string_first (ok : lexed start ('"' :: text) = .ok ws) :
    ∃ word more, ws = word :: more ∧ word.1 = .string := by
  rw [lexed_lexeme rfl, lexeme_string] at ok
  cases found : string text with
  | error flaw =>
    rw [found] at ok
    cases ok
  | ok lexeme =>
    obtain ⟨kind, more⟩ := lexeme
    obtain rfl : kind = .string := string_kind found
    rw [found] at ok
    dsimp only at ok
    cases tail : lexed (!Kind.string.endsOperand) (text.drop more) with
    | error flaw =>
      rw [tail] at ok
      cases ok
    | ok ws' =>
      rw [tail] at ok
      exact ⟨_, ws', (Except.ok.inj ok).symm, rfl⟩

end Kinds

end Token

end CellTiming
