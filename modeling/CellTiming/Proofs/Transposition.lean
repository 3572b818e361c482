import CellTiming.Proofs.Exchange
import CellTiming.Proofs.ItemPlaces

/-! Items in another order. Items of different sorts are added to different parts of a timing, and
each of them is read from its own words with the specparams declared before it, so two that stand
side by side may change places. -/
namespace CellTiming

/-- The words of an item of the sort, from the one that opens it to the semicolon. -/
inductive IsItem (sort : ItemSort) : List Word → Prop
  | mk {word body stop} (opens : word.1.opens = some sort)
      (inner : ∀ w ∈ body, w.1 ≠ .symbol .semicolon) (ends : stop.1 = .symbol .semicolon) :
      IsItem sort (word :: (body ++ [stop]))

/-- No item, or ends of groups that are followed by others. -/
inductive GroupBreak : List Token → Prop
  | nil : GroupBreak []
  | cons {t next rest} (ends : t.kind = .keyword .endspecify) (opens : next.kind = .keyword .specify)
      (others : GroupBreak rest) : GroupBreak (t :: next :: rest)

/-- Behind a token of the kind an item begins or a group ends. -/
def Token.Kind.isBoundary : Token.Kind → Bool
  | .keyword .specify | .symbol .semicolon => true
  | _ => false

section Adding

variable {timing extended : ModuleTiming} {item item' : TimingItem} {sort sort' : ItemSort}

theorem specparams_of_sort (sorted : item.sort = some sort) (added : timing.add item = .ok extended) :
    extended.specparams = timing.specparams := by
  cases Grammar.adds_of_ok added with
  | string | value => cases sorted
  | check | path | conditioned | ifnone => rfl

/-- A default condition is made of the paths in the index alone. -/
theorem add_ifnone_comm (extended : ModuleTiming)
    (added : ∀ index, { timing with conditioned := index }.add item =
      .ok { extended with conditioned := index }) (line : Nat) (path : Path) :
    (timing.add item >>= (·.add (.ifnone line path))) =
      timing.add (.ifnone line path) >>= (·.add item) := by
  have first : timing.add item = .ok { extended with conditioned := timing.conditioned } :=
    added timing.conditioned
  rw [first]
  change ModuleTiming.add _ (.ifnone line path) = _
  have same : { extended with conditioned := timing.conditioned }.ifnoneCondition path.key =
      timing.ifnoneCondition path.key := rfl
  rw [ModuleTiming.add, ModuleTiming.add, same]
  cases timing.ifnoneCondition path.key with
  | none => rfl
  | some condition => exact (added _).symm

/-- Items of different sorts are added in either order. -/
theorem add_comm_of_sorts (sorted : item.sort = some sort) (sorted' : item'.sort = some sort')
    (apart : sort ≠ sort') (timing : ModuleTiming) :
    (timing.add item >>= (·.add item')) = timing.add item' >>= (·.add item) := by
  have other : item.sort ≠ item'.sort := by
    rw [sorted, sorted']
    exact fun same => apart (Option.some.inj same)
  cases item with
  | specparam => cases sorted
  | check check =>
    cases item' with
    | specparam => cases sorted'
    | check => exact absurd rfl other
    | path | conditioned => rfl
    | ifnone line path =>
      exact add_ifnone_comm { timing with checks := timing.checks ++ [check] } (fun _ => rfl) line path
  | path added =>
    cases item' with
    | specparam => cases sorted'
    | path => exact absurd rfl other
    | check | conditioned => rfl
    | ifnone line path =>
      exact add_ifnone_comm { timing with paths := timing.paths ++ [added] } (fun _ => rfl) line path
  | conditioned =>
    cases item' with
    | specparam => cases sorted'
    | conditioned | ifnone => exact absurd rfl other
    | check | path => rfl
  | ifnone line path =>
    cases item' with
    | specparam => cases sorted'
    | conditioned | ifnone => exact absurd rfl other
    | check check =>
      exact (add_ifnone_comm { timing with checks := timing.checks ++ [check] } (fun _ => rfl)
        line path).symm
    | path added =>
      exact (add_ifnone_comm { timing with paths := timing.paths ++ [added] } (fun _ => rfl)
        line path).symm

end Adding

namespace Grammar

section Places

theorem OpensItem.isBoundary {kind : Token.Kind} {item : TimingItem} (opens : OpensItem kind item) :
    kind.isBoundary = false := by
  cases item with
  | check =>
    obtain ⟨task, rfl⟩ := opens
    rfl
  | specparam | path | conditioned | ifnone =>
    cases opens
    rfl

/-- No item goes on behind a boundary. -/
theorem heads_boundary (t : Token) : Heads (fun w => w.kind.isBoundary = true) t := by
  intro table first
  refine ((takesStatement_itemAfter table first).and (itemAfter_opens table first)).mono ?_
  rintro _ item ⟨⟨body, stop, rfl, known, -⟩, opened⟩ front more same follows
  rcases List.eq_nil_or_concat front with rfl | ⟨front, w, rfl⟩
  · rfl
  rw [List.concat_eq_append] at same follows
  have boundary : w.kind.isBoundary = true := follows w List.getLast?_concat
  have whole : first :: body = (front ++ [w]) ++ (t :: more).dropLast := by
    have inits := congrArg List.dropLast same
    rwa [← List.cons_append, List.dropLast_concat, List.dropLast_append_of_ne_nil (by simp)] at inits
  have member : w ∈ first :: body := by simp [whole]
  have plain : ∀ kind ∈ statementKinds, kind.isBoundary = false := by decide
  rcases List.mem_cons.mp member with rfl | inner
  · rw [opened.isBoundary] at boundary
    cases boundary
  · rw [plain _ (known w inner)] at boundary
    cases boundary

end Places

section Items

variable {timing final : ModuleTiming} {rest front back : List Token} {sort sort' : ItemSort}
  {found : List TimingItem}

/-- The tokens are read as the item, whatever follows them. -/
def ReadsItem (table : Specparams) (tokens : List Token) (item : TimingItem) : Prop :=
  ∀ timing rest, timing.specparams = table →
    continued timing (tokens ++ rest) = timing.add item >>= (continued · rest)

theorem readsItem_of_continued {t stop : Token} {body : List Token}
    (opens : t.kind.opens = some sort) (inner : ∀ u ∈ body, u.kind ≠ .symbol .semicolon)
    (ends : stop.kind = .symbol .semicolon)
    (ok : continued timing (t :: (body ++ [stop]) ++ rest) = .ok final) :
    ∃ item, item.sort = some sort ∧
      ReadsItem timing.specparams (t :: (body ++ [stop])) item := by
  have starts : t.kind ≠ .keyword .endspecify := by
    intro kind
    simp [kind, Token.Kind.opens] at opens
  rw [List.cons_append, List.append_assoc, List.singleton_append] at ok
  cases read : (itemAfter timing.specparams t).run (body ++ stop :: rest) with
  | error e =>
    rw [continued_failed starts read] at ok
    cases ok
  | ok step =>
    obtain ⟨item, after⟩ := step
    obtain ⟨_, _, opened⟩ := itemAfter_opens _ t _ _ _ read
    obtain ⟨used, whole, -, again⟩ := closed_itemAfter _ t _ _ _ read
    obtain ⟨used', whole', body', stop', rfl, known, ends'⟩ :=
      takesStatement_itemAfter _ t _ _ _ read
    have inner' : ∀ u ∈ body', u.kind ≠ .symbol .semicolon := by
      have plain : ∀ kind ∈ statementKinds, kind ≠ .symbol .semicolon := by decide
      exact fun u member => plain _ (known u member)
    have split : body ++ stop :: rest = body' ++ stop' :: after := by simpa using whole'
    obtain ⟨rfl, rfl, rfl⟩ := cut_unique (p := (·.kind = .symbol .semicolon)) inner inner' ends
      ends' split
    obtain rfl : used = body ++ [stop] := List.append_cancel_right (whole.symm.trans whole')
    refine ⟨item, (opened.sort).trans opens, ?_⟩
    rintro other rest' same
    exact continued_item starts (same ▸ again rest')

theorem tokens_of_isItem {tokens : List Token} (one : IsItem sort (words tokens)) :
    ∃ t body stop, tokens = t :: (body ++ [stop]) ∧ t.kind.opens = some sort ∧
      (∀ u ∈ body, u.kind ≠ .symbol .semicolon) ∧ stop.kind = .symbol .semicolon := by
  generalize same : words tokens = ws at one
  obtain ⟨opens, inner, ends⟩ := one
  obtain ⟨t, rest, rfl, rfl, behind⟩ := words_eq_cons same
  obtain ⟨body, last, rfl, rfl, single⟩ := words_eq_append behind
  obtain ⟨stop, none, rfl, rfl, nothing⟩ := words_eq_cons single
  obtain rfl := words_eq_nil nothing
  exact ⟨t, body, stop, rfl, opens, fun u member => inner _ (List.mem_map_of_mem member), ends⟩

theorem continued_break {gap : List Token} (between : GroupBreak gap) :
    continued timing (gap ++ rest) = continued timing rest := by
  induction between with
  | nil => rfl
  | cons ends opens _ ih => exact (continued_group ends opens).trans ih

variable {first second gap : List Token}

theorem transposed
    (reached : Reached (front ++ (first ++ (gap ++ (second ++ back)))) found timing
      (first ++ (gap ++ (second ++ back))))
    (one : IsItem sort (words first)) (between : GroupBreak gap)
    (other : IsItem sort' (words second)) (apart : sort ≠ sort')
    (ok : ModuleTiming.ofTokens (front ++ (first ++ (gap ++ (second ++ back)))) = .ok final) :
    ModuleTiming.ofTokens (front ++ (second ++ (gap ++ (first ++ back)))) = .ok final := by
  obtain ⟨front', whole, elsewhere⟩ := reached.elsewhere
  obtain rfl : front = front' := List.append_cancel_right whole
  rw [reached.continues] at ok
  obtain ⟨t, body, stop, rfl, opens, inner, ends⟩ := tokens_of_isItem one
  obtain ⟨item, sorted, reads⟩ := readsItem_of_continued opens inner ends ok
  rw [reads timing _ rfl] at ok
  obtain ⟨middle, added, ok⟩ := bind_eq_ok.mp ok
  have declared : middle.specparams = timing.specparams := specparams_of_sort sorted added
  rw [continued_break between] at ok
  obtain ⟨t', body', stop', rfl, opens', inner', ends'⟩ := tokens_of_isItem other
  obtain ⟨item', sorted', reads'⟩ := readsItem_of_continued opens' inner' ends' ok
  rw [reads' middle _ rfl] at ok
  obtain ⟨both, added', ok⟩ := bind_eq_ok.mp ok
  -- the second item is read with the same specparams before the first one as behind it
  rw [declared] at reads'
  obtain ⟨middle', first_, second_⟩ := bind_eq_ok.mp <|
    (add_comm_of_sorts sorted' sorted (Ne.symm apart) timing).trans <|
      bind_eq_ok.mpr ⟨middle, added, added'⟩
  have declared' : middle'.specparams = timing.specparams := specparams_of_sort sorted' first_
  rw [(elsewhere _).continues, reads' timing _ rfl]
  refine bind_eq_ok.mpr ⟨middle', first_, ?_⟩
  rw [continued_break between, reads middle' _ declared']
  exact bind_eq_ok.mpr ⟨both, second_, ok⟩

/-- Behind a boundary an item is read from its first token on. -/
theorem item_reached (one : IsItem sort (words first))
    (ok : ModuleTiming.ofTokens (front ++ (first ++ rest)) = .ok final)
    (once : EndsOnce (front ++ (first ++ rest)))
    (place : ∀ w ∈ front.getLast?, w.kind.isBoundary = true) :
    ∃ found timing, Reached (front ++ (first ++ rest)) found timing (first ++ rest) := by
  obtain ⟨t, body, stop, rfl, opens, -, -⟩ := tokens_of_isItem one
  have other : t.kind ≠ .keyword .specify := by
    intro kind
    simp [kind, Token.Kind.opens] at opens
  have early : t.kind ≠ .endOfInput := by
    intro kind
    simp [kind, Token.Kind.opens] at opens
  exact head_reached ok once (heads_boundary t) other early place rfl

end Items

end Grammar

/-- Two items of different sorts with no other between them may change places: the tokens, and every
text with their words, make the same timing and the same cell. -/
theorem ofBlock_transposed {text : String} {front first gap second back : List Token}
    {sort sort' : ItemSort} {timing : ModuleTiming}
    (cut : Token.ofString text = .ok (front ++ (first ++ (gap ++ (second ++ back)))))
    (place : ∀ w ∈ front.getLast?, w.kind.isBoundary = true)
    (one : IsItem sort (words first)) (between : GroupBreak gap)
    (other : IsItem sort' (words second)) (apart : sort ≠ sort')
    (ok : ModuleTiming.ofBlock text = .ok timing) :
    ModuleTiming.ofTokens (front ++ (second ++ (gap ++ (first ++ back)))) = .ok timing ∧
      ∀ text' ts, Token.ofString text' = .ok ts →
        words ts = words (front ++ (second ++ (gap ++ (first ++ back)))) →
        ModuleTiming.ofBlock text' = .ok timing ∧
          ∀ name, (ModuleTiming.ofBlock text').map (Liberty.cellOf? name) =
            .ok (Liberty.cellOf? name timing) := by
  rw [ModuleTiming.ofBlock, cut] at ok
  obtain ⟨found, state, reached⟩ := Grammar.item_reached one ok (endsOnce_of_ofString cut) place
  have swapped := Grammar.transposed reached one between other apart ok
  refine ⟨swapped, fun text' ts cut' same => ?_⟩
  have ok' : ModuleTiming.ofBlock text' = .ok timing := by
    rw [ModuleTiming.ofBlock, cut']
    exact ModuleTiming.ok_of_words same.symm swapped
  exact ⟨ok', fun name => by rw [ok']; rfl⟩

private def guardedWords : List Word :=
  [(.keyword .specify, "specify"), (.keyword .conditional, "if"), symbolWord .leftParen, nameWord "E",
    symbolWord .rightParen, symbolWord .leftParen, nameWord "A", symbolWord .parallelPath,
    nameWord "Q", symbolWord .rightParen, symbolWord .assign, (.number, "1"), symbolWord .semicolon]

private def defaultWords : List Word :=
  (.keyword .ifnone, "ifnone") :: ([symbolWord .leftParen, nameWord "A", symbolWord .parallelPath,
    nameWord "Q", symbolWord .rightParen, symbolWord .assign, (.number, "2")] ++
    [symbolWord .semicolon])

private def setupWords : List Word :=
  taskWord .setup :: ([symbolWord .leftParen, nameWord "D", symbolWord .comma, nameWord "A",
    symbolWord .comma, (.number, "3"), symbolWord .rightParen] ++ [symbolWord .semicolon])

private def lastWords : List Word := [(.keyword .endspecify, "endspecify"), (.endOfInput, "")]

private def defaultFirst : String :=
  "specify if (E) (A => Q) = 1; ifnone (A => Q) = 2; $setup(D, A, 3); endspecify"

private def setupFirst : String :=
  "specify if (E) (A => Q) = 1; $setup(D, A, 3); ifnone (A => Q) = 2; endspecify"

theorem ofBlock_transposed_default :
    ∃ timing, ModuleTiming.ofBlock defaultFirst = .ok timing ∧
      ModuleTiming.ofBlock setupFirst = .ok timing ∧
      timing.checks.length = 1 ∧ timing.conditioned.paths.length = 2 := by
  have cut : (Token.ofString defaultFirst).toOption.map words =
      some (guardedWords ++ (defaultWords ++ (setupWords ++ lastWords))) := by
    decide +kernel
  have cut' : (Token.ofString setupFirst).toOption.map words =
      some (guardedWords ++ (setupWords ++ (defaultWords ++ lastWords))) := by
    decide +kernel
  have read : (ModuleTiming.ofBlock defaultFirst).toOption.map (fun timing =>
      (timing.checks.length, timing.conditioned.paths.length)) = some (1, 2) := by
    decide +kernel
  obtain ⟨ts, tokens, same⟩ := exists_ok_of_toOption cut
  obtain ⟨ts', tokens', same'⟩ := exists_ok_of_toOption cut'
  obtain ⟨timing, ok, counted⟩ := exists_ok_of_toOption read
  obtain ⟨front, others, rfl, front_, same⟩ := words_eq_append same
  obtain ⟨first, others, rfl, first_, same⟩ := words_eq_append same
  obtain ⟨second, back, rfl, second_, back_⟩ := words_eq_append same
  have default : IsItem .conditioned (words first) := first_ ▸ .mk rfl (by decide) rfl
  have setup : IsItem .check (words second) := second_ ▸ .mk rfl (by decide) rfl
  have place : ∀ w ∈ front.getLast?, w.kind.isBoundary = true := by
    have last : ∀ word ∈ guardedWords.getLast?, word.1.isBoundary = true := by decide
    rw [← front_, words, List.getLast?_map] at last
    exact fun w member => last w.spelled (Option.mem_map_of_mem Token.spelled member)
  have swapped := (ofBlock_transposed tokens place default .nil setup (by decide) ok).2 setupFirst ts'
    tokens' (by simp only [words_append, words_nil, front_, first_, second_, back_, same']; rfl)
  exact ⟨timing, ok, swapped.1, Prod.mk.inj counted⟩

end CellTiming
