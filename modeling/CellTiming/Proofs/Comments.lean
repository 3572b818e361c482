import CellTiming.Proofs.CleanSpace

/-! Comments as spaces. A comment leaves no trace but its line breaks, so what stands before it and
what stands behind it may become one. Where they do not, a space in place of the comment makes no
difference. -/
namespace CellTiming.Source

/-- A comment and what stands behind it: the rest of a line, what a star and a slash end, or what
nothing ends. -/
inductive Comment : List Char → List Char → Prop
  | line {body rest : List Char} (single : '\n' ∉ body) (ends : rest = [] ∨ rest.head? = some '\n') :
      Comment ('/' :: '/' :: body) rest
  | block {body : List Char} (rest : List Char) (inside : ¬['*', '/'] <:+: body) :
      Comment ('/' :: '*' :: (body ++ ['*', '/'])) rest
  | unclosed {body : List Char} (inside : ¬['*', '/'] <:+: body) : Comment ('/' :: '*' :: body) []

def opensComment : List Char → Bool
  | '/' :: '/' :: _ => true
  | '/' :: '*' :: _ => true
  | _ => false

/-- The line breaks of a comment. -/
def feeds (comment : List Char) : List Char := comment.filter (· == '\n')

/-- The same source but for some of its comments, each of which gives way to a space and its line
breaks. The relation holds between what stands before and what stands behind, without comments. -/
inductive Respaced (P : List Char → List Char → Prop) :
    Context → List Char → List Char → List Char → Prop
  | done (context : Context) (before : List Char) : Respaced P context before [] []
  | code {before source source' : List Char} {c : Char} (plain : opensComment (c :: source) = false)
      (others : Respaced P (if c = '"' then .string else .code) (before ++ [c]) source source') :
      Respaced P .code before (c :: source) (c :: source')
  | string {before source source' : List Char} {c : Char}
      (others : Respaced P (if c = '"' ∨ c = '\n' then .code else .string) (before ++ [c])
        source source') :
      Respaced P .string before (c :: source) (c :: source')
  | kept {before comment source source' : List Char} (own : Comment comment source)
      (others : Respaced P .code (before ++ feeds comment) source source') :
      Respaced P .code before (comment ++ source) (comment ++ source')
  | spaced {before comment source source' : List Char} (own : Comment comment source)
      (between : P before (feeds comment ++ withoutComments .code source))
      (others : Respaced P .code (before ++ ' ' :: feeds comment) source source') :
      Respaced P .code before (comment ++ source) (' ' :: (feeds comment ++ source'))

section Stripping

variable {c : Char} {cs body comment rest : List Char}

theorem withoutComments_code (plain : opensComment (c :: cs) = false) :
    withoutComments .code (c :: cs) =
      c :: withoutComments (if c = '"' then .string else .code) cs := by
  by_cases quote : c = '"'
  · subst quote
    rfl
  · rw [if_neg quote, withoutComments]
    · exact fun same => quote same
    · rintro more rfl rfl
      cases plain
    · rintro more rfl rfl
      cases plain

theorem withoutComments_feeds (comment rest : List Char) :
    withoutComments .code (feeds comment ++ rest) = feeds comment ++ withoutComments .code rest := by
  have all : ∀ c ∈ feeds comment, c = '\n' := fun c member => by
    simpa using (List.mem_filter.mp member).2
  generalize feeds comment = breaks at all
  induction breaks with
  | nil => rfl
  | cons c breaks ih =>
    obtain ⟨rfl, others⟩ := List.forall_mem_cons.mp all
    rw [List.cons_append, withoutComments_code rfl, if_neg (by decide), ih others]
    rfl

theorem withoutComments_line (single : '\n' ∉ body) (ends : rest = [] ∨ rest.head? = some '\n') :
    withoutComments .lineComment (body ++ rest) = withoutComments .code rest := by
  induction body with
  | nil =>
    rcases ends with rfl | feed
    · rfl
    · obtain ⟨more, rfl⟩ := List.head?_eq_some_iff.mp feed
      rfl
  | cons c body ih =>
    obtain ⟨other, others⟩ := not_or.mp (mt List.mem_cons.mpr single)
    rw [List.cons_append, withoutComments, if_neg (Ne.symm other), ih others]

/-- Up to the star and the slash only the line breaks of a block comment are left. -/
theorem withoutComments_block (afterStar : Bool) (inside : ¬['*', '/'] <:+: body)
    (starts : afterStar = true → body.head? ≠ some '/') :
    ∃ afterStar', ∀ rest, withoutComments (.blockComment afterStar) (body ++ rest) =
      feeds body ++ withoutComments (.blockComment afterStar') rest := by
  induction body generalizing afterStar with
  | nil => exact ⟨afterStar, fun _ => rfl⟩
  | cons c body ih =>
    have inner : ¬['*', '/'] <:+: body := fun within =>
      inside (within.trans (List.suffix_cons c body).isInfix)
    by_cases feed : c = '\n'
    · subst feed
      obtain ⟨afterStar', step⟩ := ih false inner nofun
      refine ⟨afterStar', fun rest => ?_⟩
      rw [List.cons_append, withoutComments, if_pos rfl, step]
      rfl
    · have open_ : ¬(afterStar = true ∧ c = '/') := by
        rintro ⟨star, rfl⟩
        exact starts star rfl
      obtain ⟨afterStar', step⟩ := ih (decide (c = '*')) inner (by
        rw [decide_eq_true_eq]
        rintro rfl slash
        obtain ⟨more, rfl⟩ := List.head?_eq_some_iff.mp slash
        exact inside ⟨[], more, rfl⟩)
      refine ⟨afterStar', fun rest => ?_⟩
      rw [List.cons_append, withoutComments, if_neg feed, if_neg open_, step, feeds, feeds,
        List.filter_cons_of_neg (by simpa using feed)]

theorem withoutComments_comment (own : Comment comment rest) :
    withoutComments .code (comment ++ rest) = feeds comment ++ withoutComments .code rest := by
  cases own with
  | @line body _ single ends =>
    have none : feeds ('/' :: '/' :: body) = [] := by
      refine List.filter_eq_nil_iff.mpr fun c member feed => ?_
      obtain rfl := eq_of_beq feed
      simp [single] at member
    rw [none]
    exact withoutComments_line single ends
  | @block body _ inside =>
    obtain ⟨afterStar, step⟩ := withoutComments_block false inside nofun
    have whole : feeds ('/' :: '*' :: (body ++ ['*', '/'])) = feeds body := by simp [feeds]
    have closes : withoutComments (.blockComment afterStar) ('*' :: '/' :: rest) =
        withoutComments .code rest := by simp [withoutComments]
    rw [whole, ← closes, ← step, List.cons_append, List.cons_append, List.append_assoc]
    rfl
  | @unclosed body inside =>
    obtain ⟨afterStar, step⟩ := withoutComments_block false inside nofun
    have whole : feeds ('/' :: '*' :: body) = feeds body := by simp [feeds]
    rw [whole]
    exact (step []).trans rfl

end Stripping

section Respacing

variable {P : List Char → List Char → Prop} {context : Context}
  {before comment rest source source' : List Char}

theorem slash_of_comment (own : Comment comment rest) : comment.head? = some '/' := by
  cases own <;> rfl

/-- Texts begin alike where no comment begins. -/
theorem Respaced.head (respaced : Respaced P context before source source')
    (other : source.head? ≠ some '/') : source'.head? = source.head? := by
  cases respaced with
  | done | code | string => rfl
  | kept own | spaced own =>
    rw [List.head?_append, slash_of_comment own] at other
    exact absurd rfl other

theorem Respaced.opens {c : Char} (respaced : Respaced P context before source source')
    (plain : opensComment (c :: source) = false) : opensComment (c :: source') = false := by
  by_cases slash : c = '/'
  · subst slash
    have other : source.head? ≠ some '/' := by
      intro head
      obtain ⟨more, rfl⟩ := List.head?_eq_some_iff.mp head
      cases plain
    have same := respaced.head other
    cases source' with
    | nil => rfl
    | cons d source' =>
      obtain ⟨more, rfl⟩ := List.head?_eq_some_iff.mp same.symm
      by_cases star : d = '*'
      · subst star
        cases plain
      · have slash : d ≠ '/' := fun same => other (by rw [same]; rfl)
        simp [opensComment, star, slash]
  · simp [opensComment, slash]

theorem Respaced.still (respaced : Respaced P context before source source')
    (own : Comment comment source) : Comment comment source' := by
  cases own with
  | line single ends =>
    have other : source.head? ≠ some '/' := by
      rcases ends with rfl | feed
      · exact nofun
      · rw [feed]
        decide
    refine .line single (ends.imp (fun none => ?_) (respaced.head other).trans)
    rw [← List.head?_eq_none_iff, respaced.head other, none, List.head?_nil]
  | block _ inside => exact .block source' inside
  | unclosed inside =>
    have none := respaced.head nofun
    rw [List.head?_nil, List.head?_eq_none_iff] at none
    exact none ▸ .unclosed inside

/-- Text without slashes and quotes stays as it is. -/
theorem Respaced.text {text : List Char} (slash : '/' ∉ text) (quote : '"' ∉ text)
    (others : Respaced P .code (before ++ text) source source') :
    Respaced P .code before (text ++ source) (text ++ source') := by
  induction text generalizing before with
  | nil => rwa [List.append_nil] at others
  | cons c text ih =>
    obtain ⟨slash, slashes⟩ := not_or.mp (mt List.mem_cons.mpr slash)
    obtain ⟨quote, quotes⟩ := not_or.mp (mt List.mem_cons.mpr quote)
    have step : Respaced P .code (before ++ [c]) (text ++ source) (text ++ source') :=
      ih slashes quotes (by rwa [List.append_assoc])
    refine .code (by simp [opensComment, Ne.symm slash]) ?_
    rwa [if_neg (Ne.symm quote)]

/-- Comments are stripped one by one, and each space before the comments behind it are. -/
theorem Respaced.kind (macros : List String)
    (respaced : Respaced Separates context before source source') :
    (timings macros (linesOf (before ++ withoutComments context source'))).mapError Failure.kind =
      (timings macros (linesOf (before ++ withoutComments context source))).mapError Failure.kind := by
  induction respaced with
  | done => rfl
  | @code before source source' c plain others ih =>
    rw [withoutComments_code plain, withoutComments_code (others.opens plain)]
    simpa using ih
  | @string before source source' c others ih =>
    rw [withoutComments, withoutComments]
    simpa using ih
  | @kept before comment source source' own others ih =>
    rw [withoutComments_comment own, withoutComments_comment (others.still own)]
    simpa using ih
  | @spaced before comment source source' own between others ih =>
    have space : withoutComments .code (' ' :: (feeds comment ++ source')) =
        ' ' :: (feeds comment ++ withoutComments .code source') := by
      rw [withoutComments_code rfl, if_neg (by decide), withoutComments_feeds]
    rw [withoutComments_comment own, space, ← timings_space macros between]
    simpa using ih

end Respacing

/-- Whatever comments of a source give way to spaces, if the spaces make no difference to the text
without comments then they make none to what is read. -/
theorem comments_as_spaces (macros : List String) (source source' : String)
    (respaced : Respaced Separates .code [] source.toList source'.toList) :
    (modules macros source').mapError Failure.kind = (modules macros source).mapError Failure.kind := by
  have kind := respaced.kind macros
  rwa [List.nil_append, List.nil_append, ← cleanLines_eq, ← cleanLines_eq, ← modules_eq,
    ← modules_eq] at kind

private def commented : String :=
  "module M; // cell\nspecify\n(A /* a\nb */=> Y) = 1;/**/(B/**/B => Y) = 2;\nendspecify\nendmodule"

private def spacious : String :=
  "module M;  \nspecify\n(A  \n=> Y) = 1; (B/**/B => Y) = 2;\nendspecify\nendmodule"

theorem comments_as_spaces_cell :
    Respaced Separates .code [] commented.toList spacious.toList ∧
      ((modules defaultMacros commented).toOption.map List.length) = some 1 ∧
      (modules defaultMacros spacious).mapError Failure.kind =
        (modules defaultMacros commented).mapError Failure.kind := by
  have source : commented.toList = "module M; ".toList ++ (('/' :: '/' :: " cell".toList) ++
      ("\nspecify\n(A ".toList ++ (('/' :: '*' :: (" a\nb ".toList ++ ['*', '/'])) ++
      ("=> Y) = 1;".toList ++ (('/' :: '*' :: ([] ++ ['*', '/'])) ++
      ("(B".toList ++ (('/' :: '*' :: ([] ++ ['*', '/'])) ++
      ("B => Y) = 2;\nendspecify\nendmodule".toList ++ [])))))))) := by decide +kernel
  have source' : spacious.toList = "module M; ".toList ++ (' ' :: ([] ++
      ("\nspecify\n(A ".toList ++ (' ' :: (['\n'] ++
      ("=> Y) = 1;".toList ++ (' ' :: ([] ++
      ("(B".toList ++ (('/' :: '*' :: ([] ++ ['*', '/'])) ++
      ("B => Y) = 2;\nendspecify\nendmodule".toList ++ []))))))))))) := by decide +kernel
  have respaced : Respaced Separates .code [] commented.toList spacious.toList := by
    rw [source, source']
    refine .text (by decide) (by decide) (.spaced (.line (by decide) (.inr (by decide)))
      (.blank (by decide +kernel)) ?_)
    refine .text (by decide) (by decide) (.spaced (.block _ (by decide))
      (.blank (by decide +kernel)) ?_)
    refine .text (by decide) (by decide) (.spaced (.block _ (by decide))
      (.apart (by decide +kernel) (by decide +kernel) (by decide +kernel)) ?_)
    refine .text (by decide) (by decide) (.kept (.block _ (by decide)) ?_)
    exact .text (by decide) (by decide) (.done .code _)
  have read : ((modules defaultMacros commented).toOption.map List.length) = some 1 := by
    decide +kernel
  exact ⟨respaced, read, comments_as_spaces defaultMacros commented spacious respaced⟩

/-- A source is read differently with spaces for its comments. -/
def Differs (source source' : String) : Prop :=
  Respaced (fun _ _ => True) .code [] source.toList source'.toList ∧
    (modules defaultMacros source').mapError Failure.kind ≠
      (modules defaultMacros source).mapError Failure.kind

private def pathCounts (source : String) : Option (List Nat) :=
  (modules defaultMacros source).toOption.map (·.map (·.timing.paths.length))

theorem differs_of_counts {front back : String}
    (slash : '/' ∉ (front ++ back).toList) (quote : '"' ∉ (front ++ back).toList)
    (counts : pathCounts (front ++ " " ++ back) ≠ pathCounts (front ++ "/**/" ++ back)) :
    Differs (front ++ "/**/" ++ back) (front ++ " " ++ back) := by
  refine ⟨?_, fun same => counts ?_⟩
  · rw [String.toList_append, List.mem_append, not_or] at slash quote
    have none : ¬['*', '/'] <:+: ([] : List Char) := by decide
    have rest : Respaced (fun _ _ => True) .code ([] ++ front.toList ++ [' ']) (back.toList ++ [])
        (back.toList ++ []) := .text slash.2 quote.2 (.done .code _)
    have whole := Respaced.text slash.1 quote.1 (.spaced (.block _ none) trivial rest)
    simpa [feeds] using whole
  · have read (result : Except Failure (List NamedTiming)) :
        (result.mapError Failure.kind).toOption = result.toOption := by cases result <;> rfl
    rw [pathCounts, pathCounts, ← read, same, read]

private def guarded : String := "module M; specify\n\x60ifdef SC_USE_PG_PIN"

private def path : String := ";\n(A => Y) = 1;\n\x60endif\nendspecify"

/-- A comment within a word leaves the word whole, and one behind the name of a macro makes what
follows a part of the name. -/
theorem comments_as_spaces_glued :
    Differs ("module M; speci" ++ "/**/" ++ "fy") ("module M; speci" ++ " " ++ "fy") ∧
      Differs (guarded ++ "/**/" ++ path) (guarded ++ " " ++ path) :=
  ⟨differs_of_counts (by decide) (by decide) (by decide +kernel),
    differs_of_counts (by decide) (by decide) (by decide +kernel)⟩

end CellTiming.Source
