import CellTiming.Proofs.Drawn
import CellTiming.Proofs.ItemCauses
import CellTiming.Proofs.Tiling
import CellTiming.Source.Modules

/-! Every failure points at its cause: at the line of the cleaned source that is out of
place, or at a piece of a line that shows what is wrong in the block of a module. -/
namespace CellTiming

/-- The text holds what the error is about. -/
def SourceError.ShownIn (text : List Char) : SourceError → Prop
  | .structural .. => False
  | .illegalCharacter _ c => c ∈ text
  | .malformedNumber _ piece | .unexpected _ (some piece) | .specparamRedefined _ piece
  | .specparamUndeclared _ piece => piece.toList <:+: text
  | .unexpected _ none => True
  | .ifnoneUncovered _ => "ifnone".toList <:+: text

theorem SourceError.ShownIn.mono {piece text : List Char} {e : SourceError} (shown : e.ShownIn piece)
    (within : piece <:+: text) : e.ShownIn text := by
  cases e with
  | structural => exact shown
  | illegalCharacter => exact within.subset shown
  | unexpected _ token =>
    cases token with
    | none => trivial
    | some => exact List.IsInfix.trans shown within
  | _ => exact List.IsInfix.trans shown within

section Lines

/-- A piece within a line of a text is a piece of the line that the line feeds before it
count off. -/
theorem line_of_piece {texts : List (List Char)} {front piece back : List Char}
    (some_ : texts ≠ []) (plain : ∀ text ∈ texts, '\n' ∉ text) (single : '\n' ∉ piece)
    (whole : ['\n'].intercalate texts = front ++ (piece ++ back)) :
    ∃ text, texts[front.count '\n']? = some text ∧ piece <:+: text := by
  induction texts generalizing front with
  | nil => contradiction
  | cons text texts ih =>
    obtain ⟨first, others⟩ := List.forall_mem_cons.mp plain
    cases texts with
    | nil =>
      rw [List.intercalate_singleton] at whole
      subst whole
      have feeds : front.count '\n' = 0 := List.count_eq_zero.mpr fun member => first (by simp [member])
      exact ⟨_, by rw [feeds]; rfl, ⟨front, back, by simp⟩⟩
    | cons next texts =>
      rw [List.intercalate_cons_cons, List.append_assoc, List.singleton_append] at whole
      by_cases later : '\n' ∈ front
      · obtain ⟨before, after, rfl, early⟩ := List.eq_append_cons_of_mem later
        rw [List.append_assoc, List.cons_append] at whole
        obtain ⟨rfl, rest⟩ := eq_of_first first early whole
        obtain ⟨found, at_, within⟩ := ih (by simp) others rest
        refine ⟨found, ?_, within⟩
        rw [List.count_append, List.count_eq_zero.mpr first, List.count_cons_self, Nat.zero_add]
        exact at_
      · have feeds : front.count '\n' = 0 := List.count_eq_zero.mpr later
        refine ⟨text, by rw [feeds]; rfl, ?_⟩
        rw [← List.append_assoc] at whole
        rcases List.append_eq_append_iff.mp whole with ⟨more, longer, rest⟩ | ⟨more, rfl, _⟩
        · cases more with
          | nil => exact ⟨front, [], by rw [List.append_nil, longer, List.append_nil]⟩
          | cons d more =>
            cases (List.cons.inj rest).1
            have feed : '\n' ∈ front ++ piece := by simp [longer]
            exact absurd feed (by simp [later, single])
        · exact ⟨front, more, rfl⟩

theorem count_intercalate {texts : List (List Char)} (some_ : texts ≠ [])
    (plain : ∀ text ∈ texts, '\n' ∉ text) :
    (['\n'].intercalate texts).count '\n' + 1 = texts.length := by
  induction texts with
  | nil => contradiction
  | cons text texts ih =>
    obtain ⟨first, others⟩ := List.forall_mem_cons.mp plain
    cases texts with
    | nil => rw [List.intercalate_singleton, List.count_eq_zero.mpr first]; rfl
    | cons next texts =>
      rw [List.intercalate_cons_cons, List.count_append, List.count_append, Nat.add_assoc,
        ih (by simp) others, List.count_eq_zero.mpr first]
      simp
      omega

end Lines

section Blocks

variable {text : String} {e : SourceError}

theorem ended_of_tokens {ts : List Token} (ok : Token.ofString text = .ok ts) : Ended ts := by
  obtain ⟨init, last, rfl, ending, _⟩ := Token.tokensFrom_end ok
  exact ⟨last, by simp, ending⟩

theorem line_of_end {ts : List Token} {t : Token} {text : List Char}
    (tiled : Token.Tiled 1 0 text ts) (member : t ∈ ts) (ending : t.kind = .endOfInput) :
    t.line = 1 + text.count '\n' := by
  obtain ⟨init, last, rfl, _, _, _, line, inner⟩ := tiled.last
  rcases List.mem_append.mp member with early | late
  · exact absurd ending (inner t early).1
  · rw [List.mem_singleton.mp late, line]

/-- An error in a text stands at a piece of one line that shows what it is about, and at the
last line where the text ended too early. -/
theorem piece_of_error (failed : ModuleTiming.ofBlock text = .error e) :
    ∃ front piece back, text.toList = front ++ (piece ++ back) ∧ '\n' ∉ piece ∧
      e.line = 1 + front.count '\n' ∧ e.ShownIn piece ∧
      ∀ line, e = .unexpected line none → line = 1 + text.toList.count '\n' := by
  unfold ModuleTiming.ofBlock at failed
  cases lexed : Token.ofString text with
  | error flaw =>
    rw [lexed] at failed
    cases failed
    obtain ⟨front, back, whole, _, line, fails⟩ := Token.failsAt_of_tokens lexed
    cases fails with
    | illegalCharacter first single =>
      obtain ⟨back, rfl⟩ := List.head?_eq_some_iff.mp first
      refine ⟨front, [_], back, whole, ?_, line, List.mem_singleton.mpr rfl, nofun⟩
      exact fun member => single (List.mem_singleton.mp member).symm
    | malformedNumber _ begins single =>
      obtain ⟨back, rfl⟩ := begins
      exact ⟨front, _, back, whole, single, line, List.infix_rfl, nofun⟩
  | ok ts =>
    rw [lexed] at failed
    obtain ⟨t, member, causes⟩ := Grammar.causedIn_of_ofTokens (ended_of_tokens lexed) failed
    have tiled := Token.tiled_of_tokens lexed
    obtain ⟨front, back, whole, _, place⟩ := tiled.place t member
    obtain ⟨single, word⟩ := tiled.spelled t member
    refine ⟨front, _, back, whole, single, ?_⟩
    cases causes with
    | misplaced => exact ⟨place, List.infix_rfl, nofun⟩
    | ending last =>
      refine ⟨place, trivial, fun line same => ?_⟩
      cases same
      exact line_of_end tiled member last
    | malformed | redefined | undeclared => exact ⟨place, List.infix_rfl, nofun⟩
    | uncovered opens =>
      refine ⟨place, ?_, nofun⟩
      rw [word _ opens]
      exact List.infix_rfl

end Blocks

namespace Source

section Located

variable {macros : List String} {source : String}

theorem feed_notMem_cleanLines : ∀ line ∈ cleanLines source, '\n' ∉ line.toList := by
  intro line member feed
  obtain ⟨raw, _, rfl⟩ := List.mem_map.mp member
  rw [String.toList_ofList] at feed
  rcases Text.mem_squeeze feed with other | dark
  · cases other
  · cases dark

theorem Block.DrawnFrom.plain {block : Block} (drawn : block.DrawnFrom (cleanLines source)) :
    ∀ text ∈ block.lines.map (fun line => line.text.toList), '\n' ∉ text := by
  intro text among feed
  obtain ⟨line, inside, rfl⟩ := List.mem_map.mp among
  obtain ⟨_, cleaned, at_, within⟩ := drawn.2 line inside
  exact feed_notMem_cleanLines cleaned (List.mem_of_getElem? at_) (within.subset feed)

/-- A failure names a line of the cleaned source and shows its text: the whole of a line that
is out of place, or else what the block of a module has of the line. There it holds what is
wrong, and it is the last line of the block where that ended too early. -/
inductive Failure.Located (macros : List String) (source : String) : Failure → Prop
  | structural {number line} (positive : 1 ≤ number)
      (at_ : (cleanLines source)[number - 1]? = some line) :
      Located macros source ⟨none, some number, some line, .structural number line⟩
  | block {gathered block drawn error} (found : blocks macros source = .ok gathered)
      (member : block ∈ gathered) (inner : drawn ∈ block.lines)
      (piece : drawn.DrawnFrom (cleanLines source)) (shown : error.ShownIn drawn.text.toList)
      (ending : ∀ line, error = .unexpected line none → block.lines.getLast? = some drawn) :
      Located macros source ⟨some block.module, some drawn.number, some drawn.text, error⟩

theorem located_of_timing {gathered : List Block} {block : Block} {f : Failure}
    (found : blocks macros source = .ok gathered) (member : block ∈ gathered)
    (failed : block.timing = .error f) : f.Located macros source := by
  obtain ⟨some_, drawn⟩ := drawn_of_blocks found block member
  unfold Block.timing at failed
  cases read : ModuleTiming.ofBlock block.text with
  | ok timing => rw [read] at failed; cases failed
  | error e =>
    rw [read] at failed
    cases failed
    obtain ⟨front, piece, back, whole, single, place, shown, ending⟩ := piece_of_error read
    have texts := block.toList_text
    have plain := Block.DrawnFrom.plain ⟨some_, drawn⟩
    have some_' : block.lines.map (fun drawn => drawn.text.toList) ≠ [] := by simpa using some_
    obtain ⟨text, at_, within⟩ := line_of_piece some_' plain single (texts.symm.trans whole)
    rw [List.getElem?_map, Option.map_eq_some_iff] at at_
    obtain ⟨found', at_, rfl⟩ := at_
    have line : block.line? e.line = some found' := by
      rw [Block.line?, place, if_neg (by omega), Nat.add_sub_cancel_left, at_]
    rw [line]
    have among := List.mem_of_getElem? at_
    refine .block found member among (drawn found' among) (shown.mono within) fun number same => ?_
    subst same
    have count := count_intercalate some_' plain
    rw [← texts, List.length_map] at count
    have last : front.count '\n' = block.lines.length - 1 := by
      have same : number = 1 + front.count '\n' := place
      have whole := ending number rfl
      omega
    rw [List.getLast?_eq_getElem?, ← last, at_]

theorem failed_of_mapM {α β ε : Type} {f : α → Except ε β} {xs : List α} {e : ε}
    (failed : xs.mapM f = .error e) : ∃ x ∈ xs, f x = .error e := by
  induction xs with
  | nil => cases failed
  | cons x xs ih =>
    rw [List.mapM_cons] at failed
    cases first : f x with
    | error e' =>
      rw [first] at failed
      cases failed
      exact ⟨x, List.mem_cons_self, first⟩
    | ok y =>
      rw [first] at failed
      cases others : xs.mapM f with
      | ok ys => rw [others] at failed; cases failed
      | error e' =>
        rw [others] at failed
        cases failed
        obtain ⟨x', member, failed⟩ := ih others
        exact ⟨x', List.mem_cons_of_mem _ member, failed⟩

theorem modules_located (macros : List String) (source : String) (f : Failure)
    (failed : modules macros source = .error f) : f.Located macros source := by
  unfold modules at failed
  dsimp only at failed
  split at failed
  next gathered found =>
    obtain ⟨block, member, failed⟩ := failed_of_mapM failed
    exact located_of_timing found member failed
  next flaw found =>
    cases failed
    obtain ⟨number, line, rfl, positive, at_⟩ := structural_of_blocks found
    have shown : structuralFailure (cleanLines source) (.structural number line) =
        ⟨none, some number, some line, .structural number line⟩ := by
      rw [structuralFailure, SourceError.line, if_neg (by omega), at_]
    rw [shown]
    exact .structural positive at_

private def uncovered : String :=
  "module M; specify /* two\nlines */ (A => Q) = 1;\nendspecify specify\tifnone // late\n(B => Q) = 2;"

theorem modules_located_ifnone :
    ∃ f, modules [] uncovered = .error f ∧ f.Located [] uncovered ∧
      f = ⟨some "M", some 3, some "specify ifnone", .ifnoneUncovered 4⟩ := by
  have refused : (modules [] uncovered).map (fun _ => ()) =
      .error ⟨some "M", some 3, some "specify ifnone", .ifnoneUncovered 4⟩ := by decide +kernel
  cases failed : modules [] uncovered with
  | ok timings => rw [failed] at refused; cases refused
  | error f =>
    rw [failed] at refused
    exact ⟨f, rfl, modules_located [] uncovered f failed, Except.error.inj refused⟩

end Located

end Source

end CellTiming
