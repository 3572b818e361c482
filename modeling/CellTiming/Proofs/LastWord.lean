import CellTiming.Proofs.CallPlace
import CellTiming.Proofs.CleanSpace
import CellTiming.Proofs.Failures
import CellTiming.Proofs.Sections

/-! The last word of a block. A block that can be read ends in the word `endspecify`, so no
section is left open in a source whose blocks can all be read. -/
namespace CellTiming

namespace Token

variable {line offset : Nat} {text : List Char} {ts before after : List Token} {t : Token}

/-- The tokens behind one of them tile what is behind its text. -/
theorem Tiled.split (tiled : Tiled line offset text ts) (split : ts = before ++ t :: after)
    (inner : t.kind ≠ .endOfInput) : ∃ front back, text = front ++ (t.text.toList ++ back) ∧
      t.start = offset + (Text.encoded front).length ∧ Tiled t.line t.stop back after := by
  induction tiled generalizing before with
  | ending =>
    obtain ⟨rfl, same⟩ | ⟨_, _⟩ := List.singleton_eq_append_iff.mp split
    · cases same
      exact absurd rfl inner
    · simp_all
  | @token line offset gap first rest ts blank opens starts _ _ _ _ others ih =>
    cases before with
    | nil =>
      obtain ⟨rfl, rfl⟩ := List.cons.inj split
      exact ⟨gap, rest, rfl, by rw [(encoded_blank blank).1, starts], others⟩
    | cons second before =>
      obtain ⟨front, back, rfl, start, behind⟩ := ih (List.cons.inj split).2
      refine ⟨gap ++ (first.text.toList ++ front), back, ?_, ?_, behind⟩
      · simp only [List.append_assoc]
      have length := length_text first
      have order := start_le_stop first
      rw [Text.encoded_append, Text.encoded_append, List.length_append, List.length_append,
        (encoded_blank blank).1]
      omega

theorem blank_of_isBlank {c : Char} (blank : isBlank c = true) : Text.isBlank c = true := by
  simp only [isBlank, List.contains_iff_mem, List.mem_cons, List.not_mem_nil, or_false] at blank
  rcases blank with rfl | rfl | rfl | rfl <;> rfl

end Token

open Token in
/-- Nothing but blanks stands behind the last word of a block, and nothing before it goes on
into it. -/
theorem endspecify_of_ofBlock {text : String} {timing : ModuleTiming}
    (ok : ModuleTiming.ofBlock text = .ok timing) :
    ∃ front back, text.toList = front ++ ("endspecify".toList ++ back) ∧
      (∀ c ∈ back, isBlank c = true) ∧ inString false front = false ∧
      Severed front "endspecify".toList := by
  obtain ⟨ts, cut, read⟩ := bind_eq_ok.mp ok
  obtain ⟨found, t, left, reached, ends, atEnd⟩ := Grammar.readAs_of_ok read
  obtain ⟨used, whole, w, previous, kind⟩ := reached.previous
  obtain ⟨front, back, same, start, behind⟩ :=
    (tiled_of_tokens cut).split whole (by simp [ends])
  obtain ⟨ahead, rest, same', stands⟩ := ahead_of_tokens cut whole
  have member : t ∈ ts := whole ▸ List.mem_append_right _ List.mem_cons_self
  have spelled := ((tiled_of_tokens cut).spelled t member).2 _ ends
  have length : (Text.encoded front).length = (Text.encoded ahead).length := by
    have places := start.symm.trans stands.place
    omega
  obtain ⟨rfl, rfl⟩ := Text.front_of_length (same.symm.trans same') length
  rw [spelled] at same stands
  refine ⟨front, back, same, ?blank, stands.outside, fun u last v head => ?severed⟩
  case blank =>
    cases behind with
    | ending blank => exact blank
    | token _ _ _ kind => simp [Grammar.atEnd, kind] at atEnd
  case severed =>
    cases head
    rcases stands.last u last with blank | ⟨w', known, letter, ends⟩
    · exact fuses_blank_left blank 'e'
    · obtain rfl : w' = w := Option.some.inj (known.symm.trans previous)
      rcases kind with specify | semicolon
      · exact absurd (ends _ specify 'e' rfl) (by decide)
      · have inside : w' ∈ ts := whole ▸ List.mem_append_left _ (List.mem_of_getLast? known)
        rw [(tokensFrom_spelled cut w' inside).symbol _ semicolon] at letter
        cases letter
        decide

section LastLine

variable {line : List Char}

theorem Text.lastLine_append (single : '\n' ∉ line) (text : List Char) :
    lastLine (text ++ line) = lastLine text ++ line := by
  have inner : ∀ c ∈ line.reverse, (c != '\n') = true := by
    intro c member
    simpa using fun same : c = '\n' => single (same ▸ List.mem_reverse.mp member)
  rw [lastLine, lastLine, List.rtakeWhile, List.reverse_append,
    List.takeWhile_append_of_pos inner, List.reverse_append, List.reverse_reverse]
  rfl

theorem Text.lastLine_intercalate (single : '\n' ∉ line) (lines : List (List Char)) :
    lastLine (['\n'].intercalate (lines ++ [line])) = line := by
  have ended : lastLine (lines.flatMap (· ++ ['\n'])) = [] := by
    rcases List.eq_nil_or_concat lines with rfl | ⟨lines, other, rfl⟩
    · rfl
    · rw [List.concat_eq_append, List.flatMap_append, List.flatMap_singleton, ← List.append_assoc]
      exact List.rtakeWhile_concat_neg _ _ _ (by decide)
  rw [intercalate_append _ _ (List.cons_ne_nil _ _), List.intercalate_singleton,
    lastLine_append single, ended, List.nil_append]

end LastLine

namespace Source

theorem SourceLine.Trimmed.dark {line : SourceLine} (trimmed : line.Trimmed) :
    ∀ c ∈ line.text.toList.getLast?, Text.isBlank c = false := by
  intro c last
  obtain ⟨front, whole⟩ := List.getLast?_eq_some_iff.mp last
  by_contra blank
  rw [Bool.not_eq_false] at blank
  have shorter := (Text.trim_infix front).length_le
  have same := trimmed.2
  rw [whole, Text.trim_append_blank (List.forall_mem_singleton.mpr blank)] at same
  rw [same, List.length_append, List.length_singleton] at shorter
  omega

section Blocks

variable {macros : List String} {source : String} {block : Block} {timing : ModuleTiming}

/-- The last line of a block that can be read ends in its last word. -/
theorem endspecify_last (drawn : block.DrawnFrom (cleanLines source))
    (trimmed : ∀ line ∈ block.lines, line.Trimmed)
    (ok : ModuleTiming.ofBlock block.text = .ok timing) :
    (block.lines.flatMap fun line => wordsIn line.text.toList).getLast? = some .endspecify := by
  obtain ⟨front, back, whole, blank, outside, severed⟩ := endspecify_of_ofBlock ok
  rcases List.eq_nil_or_concat block.lines with none | ⟨init, last, same⟩
  · exact absurd none drawn.1
  rw [List.concat_eq_append] at same
  have single : '\n' ∉ last.text.toList :=
    drawn.plain _ (List.mem_map_of_mem (same ▸ List.mem_append_right _ List.mem_cons_self))
  have trimmed' : last.Trimmed := trimmed last (same ▸ List.mem_append_right _ List.mem_cons_self)
  have ends : Text.lastLine block.text.toList = last.text.toList := by
    rw [Block.toList_text, same, List.map_append]
    exact Text.lastLine_intercalate single _
  -- a blank behind the word would end the last line
  have nothing : back = [] := by
    rcases List.eq_nil_or_concat back with none | ⟨blanks, c, rfl⟩
    · exact none
    · obtain ⟨others, whole'⟩ := Text.lastLine_suffix block.text.toList
      have some_ : last.text.toList ≠ [] := by simpa using trimmed'.1
      have dark : Text.isBlank c = false := by
        refine trimmed'.dark c ?_
        rw [← List.getLast?_append_of_ne_nil others some_, ← ends, whole', whole,
          List.concat_eq_append, ← List.append_assoc, ← List.append_assoc]
        exact List.getLast?_concat
      rw [Token.blank_of_isBlank (blank c (by simp))] at dark
      cases dark
  rw [nothing, List.append_nil] at whole
  have single' : '\n' ∉ "endspecify".toList := by decide
  rw [whole, Text.lastLine_append single'] at ends
  have words : (wordsIn last.text.toList).getLast? = some .endspecify := by
    have behind := severed.suffix (Text.lastLine_suffix front)
    have word : cutAtStructure false false "endspecify".toList = ([], [(.endspecify, [])]) := by
      decide +kernel
    rw [← ends, wordsIn, cutAtStructure_parts (quoted_lastLine outside) behind, appended_words,
      word]
    simp
  rw [same, List.flatMap_append, List.flatMap_singleton]
  exact List.mem_getLast?_append_of_mem_getLast? words

/-- A source whose blocks can all be read leaves no section open. -/
theorem outside_of_readable {found : List Block} (ok : blocks macros source = .ok found)
    (readable : ∀ block ∈ found, ∃ timing, ModuleTiming.ofBlock block.text = .ok timing) :
    ∃ last closed, Extraction.lines macros {} 1 (cleanLines source) = .ok last ∧
      last.inSpecify = false ∧ found = grouped Prod.fst Extraction.blockOf closed ∧
      Extraction.collected macros {} 1 (cleanLines source) = closed.map (Prod.map some id) := by
  have drawn := drawn_of_blocks ok
  have trimmed := trimmed_of_blocks ok
  obtain ⟨last, closed, reached, rfl, same, told⟩ := told_of_blocks ok
  refine ⟨last, closed, reached, ?_, rfl, same⟩
  by_contra opened
  rw [Bool.not_eq_false] at opened
  -- the last word of the open module would be `specify`
  obtain ⟨module, known⟩ := Option.ne_none_iff_exists'.mp (told.known opened)
  obtain ⟨count, words⟩ := told.words module
  rw [Extraction.leftOpen, if_pos opened, if_pos known] at words
  have mentioned : module ∈ closed.map Prod.fst := by
    by_contra absent
    have none : closed.filter (·.1 = module) = [] := by
      rw [List.filter_eq_nil_iff]
      exact fun entry member own => absent (List.mem_map.mpr ⟨entry, member, by simpa using own⟩)
    simp [none, Extraction.blockOf] at words
  have member := List.mem_map_of_mem
    (f := fun module => Extraction.blockOf module (closed.filter (·.1 = module)))
    (List.mem_eraseDups.mpr mentioned)
  obtain ⟨timing, read⟩ := readable _ member
  have ends := endspecify_last (drawn _ member) (trimmed _ member) read
  rw [words] at ends
  simp at ends

end Blocks

end Source

end CellTiming
