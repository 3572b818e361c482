/-! Finding one text in another, and cutting a text into pieces. -/
namespace CellTiming.Text

/-- What follows the first occurrence of a pattern. -/
def afterFirst? (pattern : List Char) : List Char → Option (List Char)
  | [] => if pattern.isEmpty then some [] else none
  | c :: cs =>
    if pattern.isPrefixOf (c :: cs) then some ((c :: cs).drop pattern.length)
    else afterFirst? pattern cs

def occursIn (pattern text : List Char) : Bool := (afterFirst? pattern text).isSome

theorem occursIn_iff {pattern text : List Char} :
    occursIn pattern text = true ↔ pattern <:+: text := by
  unfold occursIn
  induction text with
  | nil =>
    rw [afterFirst?, List.infix_nil]
    cases pattern <;> simp
  | cons c text ih =>
    rw [afterFirst?, List.infix_cons_iff, ← List.isPrefixOf_iff_prefix, ← ih]
    split
    next begins => simp [begins]
    next begins => simp [begins]

/-- The pieces between separators; there is always at least one. -/
def pieces (separator : Char) : List Char → List (List Char)
  | [] => [[]]
  | c :: cs =>
    if c = separator then [] :: pieces separator cs
    else match pieces separator cs with
      | [] => [[c]]
      | piece :: others => (c :: piece) :: others

theorem pieces_ne_nil (separator : Char) (text : List Char) : pieces separator text ≠ [] := by
  cases text with
  | nil => simp [pieces]
  | cons c text =>
    rw [pieces]
    split
    · simp
    · split <;> simp

theorem pieces_append (separator : Char) (front back : List Char) :
    pieces separator (front ++ separator :: back) = pieces separator front ++ pieces separator back := by
  induction front with
  | nil => simp [pieces]
  | cons c front ih =>
    rw [List.cons_append, pieces, pieces, ih]
    split
    · rfl
    · cases found : pieces separator front with
      | nil => exact absurd found (pieces_ne_nil separator front)
      | cons => rfl

theorem pieces_line {separator : Char} {line : List Char} (single : separator ∉ line)
    {text piece : List Char} {others : List (List Char)}
    (rest : pieces separator text = piece :: others) :
    pieces separator (line ++ text) = (line ++ piece) :: others := by
  induction line with
  | nil => exact rest
  | cons c line ih =>
    obtain ⟨other, others⟩ := not_or.mp (mt List.mem_cons.mpr single)
    rw [List.cons_append, pieces, if_neg (Ne.symm other), ih others]
    rfl

theorem pieces_single {separator : Char} {line : List Char} (single : separator ∉ line) :
    pieces separator line = [line] := by
  have cut := pieces_line single (rfl : pieces separator [] = [[]])
  simpa using cut

theorem pieces_prefix {separator : Char} {text piece : List Char} {others : List (List Char)}
    (cut : pieces separator text = piece :: others) : piece <+: text := by
  induction text generalizing piece others with
  | nil =>
    cases cut
    exact List.prefix_rfl
  | cons c text ih =>
    rw [pieces] at cut
    split at cut
    · cases cut
      exact List.nil_prefix
    · cases found : pieces separator text with
      | nil => exact absurd found (pieces_ne_nil separator text)
      | cons first others =>
        rw [found] at cut
        cases cut
        exact (List.prefix_cons_inj c).mpr (ih found)

theorem mem_pieces {separator c : Char} {text piece : List Char}
    (member : piece ∈ pieces separator text) (inside : c ∈ piece) : c ∈ text ∧ c ≠ separator := by
  induction text generalizing piece with
  | nil => simp_all [pieces]
  | cons d text ih =>
    rw [pieces] at member
    split at member
    · rcases List.mem_cons.mp member with rfl | later
      · cases inside
      · exact (ih later inside).imp_left (List.mem_cons_of_mem d)
    next other =>
      split at member
      next none => exact absurd none (pieces_ne_nil separator text)
      next first others same =>
        rcases List.mem_cons.mp member with rfl | later
        · rcases List.mem_cons.mp inside with rfl | inner
          · exact ⟨List.mem_cons_self, other⟩
          · exact (ih (same ▸ List.mem_cons_self) inner).imp_left (List.mem_cons_of_mem d)
        · exact (ih (same ▸ List.mem_cons_of_mem first later) inside).imp_left
            (List.mem_cons_of_mem d)

def lines (text : List Char) : List (List Char) := pieces '\n' text

/-- Every occurrence of a pattern, found from the left, replaced by nothing. -/
def without (pattern : List Char) (text : List Char) : List Char :=
  match text with
  | [] => []
  | c :: cs =>
    if pattern ≠ [] ∧ pattern.isPrefixOf (c :: cs) then
      without pattern (cs.drop (pattern.length - 1))
    else c :: without pattern cs
termination_by text.length
decreasing_by all_goals (simp only [List.length_drop, List.length_cons]; omega)

end CellTiming.Text
