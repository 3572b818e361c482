import CellTiming.Proofs.Fusing

/-! A lexeme ends on the line it starts on: no name, number, string or symbol holds a line
feed. -/
namespace CellTiming.Token

variable {cs : List Char} {found : Lexeme}

theorem feed_notMem_takeWhile (p : Char → Bool) (fails : p '\n' = false) (cs : List Char) :
    '\n' ∉ cs.take (cs.takeWhile p).length := by
  rw [← List.prefix_iff_eq_take.mp (List.takeWhile_prefix p)]
  exact fun member => by simpa [fails] using List.mem_takeWhile_imp member

theorem feed_notMem_based {length : Nat} (based : basedLength? cs = some length) :
    '\n' ∉ cs.take length := by
  unfold basedLength? at based
  split at based
  next letter cs =>
    dsimp only at based
    split at based
    next known =>
      cases based
      have other : '\n' ≠ letter := by
        rintro rfl
        cases known.1
      rw [List.take_succ_cons, List.take_succ_cons]
      simp [other, feed_notMem_takeWhile isBasedDigit rfl cs]
    next => cases based
  next => cases based

theorem feed_notMem_unsigned (cs : List Char) : '\n' ∉ cs.take (unsignedLength cs) := by
  have digits (cs : List Char) := feed_notMem_takeWhile Char.isDigit rfl cs
  unfold unsignedLength
  split
  next length real =>
    unfold realLength? at real
    dsimp only at real
    split at real
    next fraction point =>
      split at real
      · cases real
        rw [Nat.add_assoc, List.take_add, point, Nat.add_comm 1, List.take_succ_cons]
        simp [digits]
      · cases real
    next => cases real
  next =>
    dsimp only
    rw [List.take_add, List.mem_append, not_or]
    refine ⟨digits cs, ?_⟩
    cases based : basedLength? (cs.drop (cs.takeWhile Char.isDigit).length) with
    | none => simp
    | some length =>
      rw [Option.getD_some]
      exact feed_notMem_based based

/-- A lexeme ends on the line it starts on. -/
theorem feed_notMem_lexeme {start : Bool} {c : Char} (ok : lexeme start c cs = .ok found) :
    '\n' ∉ c :: cs.take found.more := by
  have solitary (u : Char) : fuses u '\n' = false := fuses_blank_right rfl u
  by_cases quote : c = '"'
  · subst quote
    rw [lexeme_string] at ok
    obtain ⟨body, back, rfl, rfl, inner, _⟩ := string_cut ok
    have kept : (body ++ '"' :: back).take (body.length + 1) = body ++ ['"'] :=
      take_left_add body ('"' :: back) 1
    simp [kept, inner]
  · refine notMem_of_solitary solitary quote ?_ ok
    rintro rfl
    cases cut_of_ok ok with
    | word starts => cases starts
    | task dollar => cases dollar
    | unsigned digit => simp [basedLength?] at digit
    | signed sign => simp at sign
    | string quote => cases quote
    | @symbol symbol front =>
      have begins := letters_of_atFront front
      cases symbol <;> simp [letters] at begins

end CellTiming.Token
