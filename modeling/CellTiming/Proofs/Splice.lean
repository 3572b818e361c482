import CellTiming.Proofs.Formula
import CellTiming.Proofs.Spread

/-! Parts of a text by themselves. A part that is cut into words, and from which nothing goes on
into what follows, is cut into the same words before everything else that it does not go on
with. -/
namespace CellTiming.Token

/-- A word made of characters of the text. -/
structure WordOf (text : List Char) (word : Word) : Prop where
  spelled : ∀ symbol, word.1 = .symbol symbol → word.2 = symbol.spelling
  within : word.2.toList ⊆ text

theorem WordOf.mono {text more : List Char} {word : Word} (own : WordOf text word)
    (known : text ⊆ more) : WordOf more word :=
  ⟨own.spelled, fun _ member => known (own.within member)⟩

/-- The text is cut into the words before whatever it does not go on with. -/
structure Part (start : Bool) (text : List Char) (between : List Word) (stop : Bool) : Prop where
  own : ∀ word ∈ between, WordOf text word
  leads : ∀ rest, Severed text rest → Leads start (text ++ rest) between stop rest

section Parts

variable {start middle stop : Bool} {text rest : List Char} {between others : List Word}

theorem lexed_of_leads (leads : Leads start text between middle rest) :
    lexed start text = (lexed middle rest).map (between ++ ·) := by
  obtain ⟨us, line, offset, step, rfl⟩ := leads 1 0
  rw [← lexed_eq line offset middle rest, lexed, step]
  cases tokensFrom line offset middle rest with
  | error e => rfl
  | ok more => exact congrArg Except.ok (words_append us more)

/-- What is cut into words behind the part. -/
theorem Leads.behind (leads : Leads start text between middle rest)
    (ok : lexed start text = .ok others) :
    ∃ more, lexed middle rest = .ok more ∧ others = between ++ more := by
  rw [lexed_of_leads leads] at ok
  cases tail : lexed middle rest with
  | error e =>
    rw [tail] at ok
    cases ok
  | ok more =>
    rw [tail] at ok
    exact ⟨more, rfl, (Except.ok.inj ok).symm⟩

theorem part_nil (start : Bool) : Part start [] [] start :=
  ⟨by simp, fun rest _ => @leads_gap [] (by simp) start rest⟩

theorem Part.blank {c : Char} (blank : isBlank c = true) (part : Part start text between stop) :
    Part start (c :: text) between stop := by
  refine ⟨fun word member => (part.own word member).mono (List.subset_cons_self c text),
    fun rest severed => ?_⟩
  have gap : Leads start ([c] ++ (text ++ rest)) [] start (text ++ rest) :=
    leads_gap (by simpa using blank) start (text ++ rest)
  exact gap.trans (part.leads rest (severed.suffix (List.suffix_cons c text)))

theorem Part.lexeme {c : Char} {piece : List Char} {kind : Kind}
    (found : ∀ rest, Severed (c :: (piece ++ text)) rest →
      lexeme start c (piece ++ (text ++ rest)) = .ok ⟨kind, piece.length⟩)
    (part : Part (!kind.endsOperand) text between stop) :
    Part start (c :: (piece ++ text)) ((kind, String.ofList (c :: piece)) :: between) stop := by
  have alone := found [] nofun
  have spelled := spelled_of_lexeme alone 1 0
  rw [List.take_left] at spelled
  refine ⟨List.forall_mem_cons.mpr ⟨⟨spelled.symbol, ?_⟩, fun word member => ?_⟩,
    fun rest severed => ?_⟩
  · rw [String.toList_ofList]
    exact List.cons_subset_cons c (List.subset_append_left piece text)
  · refine (part.own word member).mono ?_
    exact fun d member => List.mem_cons_of_mem c (List.mem_append_right piece member)
  · rw [List.cons_append, List.append_assoc]
    have behind : text <:+ c :: (piece ++ text) := ⟨c :: piece, rfl⟩
    exact (leads_lexeme (found rest severed)).trans (part.leads rest (severed.suffix behind))

end Parts

section First

variable {start : Bool} {c : Char} {text rest : List Char} {words : List Word}

/-- A text that is cut into words begins with the whole of a string that is closed in it. -/
theorem front_of_string (closed : inString false ('"' :: text) = false)
    (ok : lexed start ('"' :: (text ++ rest)) = .ok words) :
    ∃ front back, text = front ++ back ∧ inString false back = false ∧
      ∀ rest', lexeme start '"' (front ++ (back ++ rest')) = .ok ⟨.string, front.length⟩ := by
  obtain ⟨body, d, tail, rfl, plain, single, ends, behind⟩ := inString_closed closed
  rcases ends with rfl | rfl
  · refine ⟨body ++ ['"'], tail, by simp, behind, fun rest' => ?_⟩
    rw [lexeme_string, List.append_assoc, List.singleton_append,
      string_ended plain single (.inl rfl), if_pos rfl, List.length_append]
    rfl
  · -- a line break ends no string
    rw [List.append_assoc, List.cons_append, lexed_lexeme rfl, lexeme_string,
      string_ended plain single (.inr rfl)] at ok
    cases ok

theorem front_of_lexeme (blank : isBlank c = false) (quote : c ≠ '"')
    (severed : Severed (c :: text) rest) (closed : inString false (c :: text) = false)
    (ok : lexed start (c :: (text ++ rest)) = .ok words) :
    ∃ kind front back, text = front ++ back ∧ inString false back = false ∧
      ∀ rest', Severed (c :: text) rest' →
        lexeme start c (front ++ (back ++ rest')) = .ok ⟨kind, front.length⟩ := by
  cases found : lexeme start c text with
  | error flaw =>
    rw [lexed_lexeme blank, lexeme_severed severed quote, found] at ok
    cases ok
  | ok found' =>
    obtain ⟨kind, more⟩ := found'
    have within : more ≤ text.length := (lexeme_take found 0).2
    have whole : text.take more ++ text.drop more = text := List.take_append_drop more text
    refine ⟨kind, text.take more, text.drop more, whole.symm, (inString_behind found).trans closed,
      fun rest' severed => ?_⟩
    rw [← List.append_assoc, whole, lexeme_severed severed quote, found,
      List.length_take_of_le within]

end First

/-- A part without an open string that is cut into words is so by itself. -/
theorem part_of_lexed {start : Bool} {text rest : List Char} {words : List Word}
    (severed : Severed text rest) (closed : inString false text = false)
    (ok : lexed start (text ++ rest) = .ok words) :
    ∃ between stop, Part start text between stop := by
  match text with
  | [] => exact ⟨[], start, part_nil start⟩
  | c :: text =>
    rw [List.cons_append] at ok
    by_cases blank : isBlank c = true
    · rw [inString_blank blank] at closed
      rw [lexed_blank blank] at ok
      obtain ⟨between, stop, part⟩ :=
        part_of_lexed (severed.suffix (List.suffix_cons c text)) closed ok
      exact ⟨between, stop, part.blank blank⟩
    · rw [Bool.not_eq_true] at blank
      obtain ⟨kind, front, back, rfl, behind, found⟩ : ∃ kind front back, text = front ++ back ∧
          inString false back = false ∧ ∀ rest', Severed (c :: text) rest' →
            lexeme start c (front ++ (back ++ rest')) = .ok ⟨kind, front.length⟩ := by
        by_cases quote : c = '"'
        · subst quote
          obtain ⟨front, back, same, behind, found⟩ := front_of_string closed ok
          exact ⟨.string, front, back, same, behind, fun rest' _ => found rest'⟩
        · exact front_of_lexeme blank quote severed closed ok
      rw [List.append_assoc] at ok
      obtain ⟨_, ok, _⟩ := (leads_lexeme (found rest severed)).behind ok
      obtain ⟨between, stop, part⟩ := part_of_lexed (severed.suffix ⟨c :: front, rfl⟩) behind ok
      exact ⟨_, stop, part.lexeme found⟩
termination_by text.length

end CellTiming.Token
