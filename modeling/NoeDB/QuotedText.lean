import NoeDB.TokenSpans

/-! Quoted text as display.rs writes it, and that it is read back as one token: no text
before it that ends a line and no text behind it that starts with a blank takes part in it. -/
namespace NoeDB.Scanner
open Text Lexer List

def escape (quote : Char) (text : List Char) : List Char :=
  text.flatMap fun c => if c = quote then [quote,quote] else [c]

def quoted (quote : Char) (text : String) : String := String.ofList (quote :: escape quote text.toList ++ [quote])

def quoteLiteral (value : String) : String := quoted '\'' value
def quoteIdent (value : String) : String := quoted '"' value

theorem quotedBack {quote after} (other : after.head? ≠ some quote) (text value) :
    scanQuoted quote (escape quote text ++ quote :: after) value = some (value.reverse ++ text,after) := by
  induction text generalizing value with
  | nil =>
    cases after with
    | nil => simp [escape,scanQuoted]
    | cons second =>
      have different : ¬second = quote := fun same => other (by rw [same]; rfl)
      simp [escape,scanQuoted,different]
  | cons first rest ih =>
    by_cases same : first = quote
    · have written : escape quote (first :: rest) = quote :: quote :: escape quote rest := by simp [escape,same]
      rw [written,cons_append,cons_append,scanQuoted,if_pos rfl,if_pos rfl,ih]
      simp [same]
    · have written : escape quote (first :: rest) = first :: escape quote rest := by simp [escape,same]
      obtain ⟨second,others,behind⟩ : ∃ second others,escape quote rest ++ quote :: after = second :: others := by
        cases escape quote rest with
        | nil => exact ⟨quote,after,rfl⟩
        | cons second others => exact ⟨second,others ++ quote :: after,rfl⟩
      have next := ih (first :: value)
      rw [behind] at next
      rw [written,cons_append,behind,scanQuoted,if_neg same,next]
      simp

theorem quotedText (scanned : scanQuoted quote chars value = some found) :
    ∃ text,found.1 = value.reverse ++ text ∧ chars = escape quote text ++ quote :: found.2 ∧ found.2.head? ≠ some quote := by
  fun_induction scanQuoted quote chars value with
  | case1 | case3 => cases scanned
  | case2 =>
    cases Option.some.inj scanned
    exact ⟨[],(append_nil _).symm,rfl,by simp⟩
  | case4 _ _ ih =>
    obtain ⟨text,same,rfl,behind⟩ := ih scanned
    exact ⟨quote :: text,by simp [same],by simp [escape],behind⟩
  | case5 _ _ _ other =>
    cases Option.some.inj scanned
    exact ⟨[],(append_nil _).symm,rfl,by simpa using other⟩
  | case6 first _ _ _ other ih =>
    obtain ⟨text,same,whole,behind⟩ := ih scanned
    exact ⟨first :: text,by simp [same],by simp [escape,other,whole],behind⟩

section

variable {chars rest more : List Char}

def EndsLine (chars : List Char) : Prop := chars.getLast? = some '\n'

theorem endsLineSuffix {before} (ends : EndsLine (before ++ rest)) (filled : rest ≠ []) : EndsLine rest := by
  unfold EndsLine at ends ⊢
  rwa [List.getLast?_append_of_ne_nil _ filled] at ends

theorem endsLineMem (ends : EndsLine chars) : '\n' ∈ chars := mem_of_getLast? ends

theorem dropWhileLine {test} (stops : test '\n' = false) (ends : EndsLine chars) (more) :
    (chars ++ more).dropWhile test = chars.dropWhile test ++ more ∧ EndsLine (chars.dropWhile test) := by
  have filled : chars.dropWhile test ≠ [] := by
    intro none
    have taken := takeWhile_append_dropWhile (p := test) (l := chars)
    rw [none,append_nil] at taken
    have holds := all_eq_true.mp all_takeWhile '\n' (by rw [taken]; exact endsLineMem ends)
    rw [stops] at holds
    cases holds
  refine ⟨?_,?_⟩
  · rw [dropWhile_append,if_neg (by simpa using filled)]
  · rw [← takeWhile_append_dropWhile (p := test) (l := chars)] at ends
    exact endsLineSuffix ends filled

theorem takeWhileLine (stops : test '\n' = false) (ends : EndsLine chars) (more) :
    (chars ++ more).takeWhile test = chars.takeWhile test := by
  have parts := takeWhile_append_dropWhile (p := test) (l := chars ++ more)
  rw [(dropWhileLine stops ends more).1,← append_assoc] at parts
  have same := append_cancel_right parts
  exact append_cancel_right (same.trans (takeWhile_append_dropWhile (p := test) (l := chars)).symm)

theorem quotedLine (other : quote ≠ '\n')
    (scanned : scanQuoted quote chars value = some found) (ends : EndsLine chars) (more) :
    found.2 ≠ [] ∧ scanQuoted quote (chars ++ more) value = some (found.1,found.2 ++ more) := by
  fun_induction scanQuoted quote chars value with
  | case1 | case3 => cases scanned
  | case2 => exact absurd (Option.some.inj ends) other
  | case4 rest _ ih =>
    have filled : rest ≠ [] := by
      rintro rfl
      exact other (Option.some.inj ends)
    obtain ⟨left,next⟩ := ih scanned (@endsLineSuffix rest [quote,quote] ends filled)
    refine ⟨left,?_⟩
    rw [cons_append,cons_append,scanQuoted,if_pos rfl,if_pos rfl]
    exact next
  | case5 _ _ _ different =>
    cases Option.some.inj scanned
    refine ⟨cons_ne_nil _ _,?_⟩
    rw [cons_append,cons_append,scanQuoted,if_pos rfl,if_neg different]
  | case6 first second rest _ different ih =>
    obtain ⟨left,next⟩ := ih scanned (@endsLineSuffix (second :: rest) [first] ends (cons_ne_nil _ _))
    refine ⟨left,?_⟩
    rw [cons_append,cons_append,scanQuoted,if_neg different]
    exact next

theorem wordLine {lex}
    (read : Local lex (encode (chars.takeWhile plain)) o) (found : readWord lex chars = some (kind,rest)) (ends : EndsLine chars)
    (more) : rest ≠ [] ∧ readWord lex (chars ++ more) = some (kind,rest ++ more) := by
  have same : (chars ++ more).takeWhile plain = chars.takeWhile plain := takeWhileLine (by decide) ends more
  obtain ⟨_,n,_,_,rfl,reads⟩ := wordLength read found
  have inside : (chars.takeWhile plain).length < chars.length := by
    have filled := endsLineMem (@dropWhileLine chars plain (by decide) ends []).2
    have parts := congrArg List.length (takeWhile_append_dropWhile (p := plain) (l := chars))
    rw [length_append] at parts
    have := length_pos_of_mem filled
    omega
  refine ⟨?_,?_⟩
  · intro none
    have := congrArg List.length none
    rw [length_drop,length_nil] at this
    omega
  · rw [reads _ same,drop_append_of_le_length (by omega)]

theorem blockRestLine (closed : blockRest chars = some rest) (ends : EndsLine chars) (more) :
    blockRest (chars ++ more) = some (rest ++ more) ∧ EndsLine rest := by
  fun_induction blockRest chars with
  | case1 => cases closed
  | case2 _ others stop =>
    obtain ⟨rfl,slash⟩ := stop
    cases Option.some.inj closed
    cases others with
    | nil => cases slash
    | cons _ behind =>
      cases Option.some.inj slash
      refine ⟨rfl,@endsLineSuffix behind ['*','/'] ends ?_⟩
      rintro rfl
      cases ends
  | case3 first others goesOn ih =>
    have filled : others ≠ [] := by
      rintro rfl
      cases closed
    obtain ⟨next,last⟩ := ih closed (@endsLineSuffix others [first] ends filled)
    refine ⟨?_,last⟩
    have goes : ¬(first = '*' ∧ (others ++ more).head? = some '/') := by
      rw [List.head?_append_of_ne_nil _ filled]
      exact goesOn
    rw [cons_append,blockRest,if_neg goes,next]

theorem skipPast (spaces : ∀ c ∈ before,isSpace c = true) (rest) : skip (before ++ rest) = skip rest := by
  rw [skipSpaces,skipSpaces rest,dropWhile_append_of_pos spaces]

theorem skipLine (skipped : skip chars = some start) (ends : EndsLine chars) (more) :
    (start = [] ∧ skip (chars ++ more) = skip more) ∨ (EndsLine start ∧ skip (chars ++ more) = some (start ++ more)) := by
  have parts := takeWhile_append_dropWhile (p := isSpace) (l := chars)
  have past (rest : List Char) : skip (chars.takeWhile isSpace ++ rest) = skip rest := skipPast (spacesFirst chars) rest
  fun_induction skip chars with
  | case1 chars line ih =>
    obtain ⟨behind,spaced⟩ := twoTaken line
    rw [spaced] at parts
    rw [← parts] at ends
    have inner : EndsLine ('-' :: '-' :: behind) := endsLineSuffix ends (cons_ne_nil _ _)
    have filled : behind ≠ [] := by
      rintro rfl
      cases inner
    have last : EndsLine behind := @endsLineSuffix behind ['-','-'] inner filled
    obtain ⟨dropped,again⟩ := @dropWhileLine behind (· ≠ '\n') (by decide) last more
    have opened : skip (chars ++ more) = skip (behind.dropWhile (· ≠ '\n') ++ more) := by
      rw [← parts,append_assoc,past,cons_append,cons_append,skipLineComment,dropped]
    rw [opened]
    rw [spaced,drop_succ_cons,drop_succ_cons,drop_zero] at skipped ih
    exact ih skipped again (takeWhile_append_dropWhile) (skipPast (spacesFirst _))
  | case2 chars _ block closedRest closed ih =>
    obtain ⟨behind,spaced⟩ := twoTaken block
    rw [spaced] at parts
    rw [← parts] at ends
    have inner : EndsLine ('/' :: '*' :: behind) := endsLineSuffix ends (cons_ne_nil _ _)
    have filled : behind ≠ [] := by
      rintro rfl
      cases inner
    have last : EndsLine behind := @endsLineSuffix behind ['/','*'] inner filled
    rw [spaced,drop_succ_cons,drop_succ_cons,drop_zero] at closed
    obtain ⟨longer,again⟩ := blockRestLine closed last more
    have opened : skip (chars ++ more) = skip (closedRest ++ more) := by
      rw [← parts,append_assoc,past,cons_append,cons_append,skipBlockClosed longer]
    rw [opened]
    exact ih skipped again (takeWhile_append_dropWhile) (skipPast (spacesFirst _))
  | case3 => cases skipped
  | case4 chars unlined unblocked =>
    cases Option.some.inj skipped
    cases spaced : chars.dropWhile isSpace with
    | nil =>
      rw [spaced,append_nil] at parts
      left
      refine ⟨rfl,?_⟩
      rw [← parts]
      exact past more
    | cons first others =>
      rw [spaced] at parts unlined unblocked
      have last : EndsLine (first :: others) := by
        rw [← parts] at ends
        exact endsLineSuffix ends (cons_ne_nil _ _)
      have filled : isSpace first = false := by
        have := List.head?_dropWhile_not isSpace chars
        rw [spaced] at this
        simpa using this
      have two : (first :: (others ++ more)).take 2 = (first :: others).take 2 := by
        cases others with
        | nil =>
          cases Option.some.inj last
          exact absurd filled (by decide)
        | cons => rfl
      right
      refine ⟨last,?_⟩
      conv_lhs => rw [← parts,append_assoc,past,cons_append]
      exact skipNothing filled (by rw [two]; exact unlined) (by rw [two]; exact unblocked)

theorem literalOpens (rest) : skip ('\'' :: rest) = some ('\'' :: rest) := by
  refine skipNothing (by decide) ?_ ?_ <;> cases rest <;> simp

theorem identOpens (rest) : skip ('"' :: rest) = some ('"' :: rest) := by
  refine skipNothing (by decide) ?_ ?_ <;> cases rest <;> simp

section

variable [Unicode]

theorem tokenLine (found : scanToken start = some (kind,rest)) (ends : EndsLine start)
    (more) : rest ≠ [] ∧ scanToken (start ++ more) = some (kind,rest ++ more) := by
  cases start with
  | nil => cases found
  | cons first others =>
    have line : scanToken ('\n' :: others) = none := by
      have letter : startsIdent '\n' = false := rfl
      rfl
    have filled : others ≠ [] := by
      intro none
      rw [none] at ends
      have same : first = '\n' := Option.some.inj ends
      rw [same,line] at found
      cases found
    have last : EndsLine others := @endsLineSuffix others [first] ends filled
    simp only [scanToken] at found
    simp only [cons_append,scanToken]
    split at found
    · obtain ⟨rfl,rfl⟩ := Prod.mk.inj (Option.some.inj found)
      obtain ⟨dropped,again⟩ := @dropWhileLine others continuesIdent rfl last more
      refine ⟨fun none => ?_,?_⟩
      · rw [none] at again
        cases again
      · rw [if_pos (by assumption),dropped,takeWhileLine rfl last]
    rename_i letter
    rw [if_neg letter]
    split at found
    · rename_i digit
      obtain ⟨o,read⟩ := digitWord others digit
      rw [if_pos digit]
      exact wordLine read found ends more
    rename_i undigit
    rw [if_neg undigit]
    split at found
    · rename_i quote
      obtain ⟨value,scanned,same⟩ := Option.map_eq_some_iff.mp found
      obtain ⟨rfl,rfl⟩ := Prod.mk.inj same
      obtain ⟨left,next⟩ := quotedLine (by decide) scanned last more
      rw [if_pos quote,next]
      exact ⟨left,rfl⟩
    rename_i unquote
    rw [if_neg unquote]
    split at found
    · rename_i quote
      obtain ⟨_,scanned,same⟩ := Option.map_eq_some_iff.mp found
      obtain ⟨rfl,rfl⟩ := Prod.mk.inj same
      obtain ⟨left,next⟩ := quotedLine (by decide) scanned last more
      rw [if_pos quote,next]
      exact ⟨left,rfl⟩
    rename_i undouble
    rw [if_neg undouble,List.head?_append_of_ne_nil _ filled]
    split at found
    · rename_i pointed
      obtain ⟨rfl,digit⟩ := pointed
      obtain ⟨o,read⟩ := pointWord others
      rw [if_pos ⟨rfl,digit⟩]
      exact wordLine read found ends more
    rename_i unpointed
    rw [if_neg unpointed]
    split at found
    · rename_i operator
      obtain ⟨o,read⟩ := operatorWord others operator
      rw [if_pos operator]
      exact wordLine read found ends more
    · cases found

def Lexeme.before (l : Lexeme) (more : List Char) : Lexeme := ⟨l.start ++ more,l.kind,l.rest ++ more⟩

theorem scansAppend (scans : Scans chars lexemes) (ends : EndsLine chars)
    (next : Scans more others) : Scans (chars ++ more) (lexemes.map (fun l => l.before more) ++ others) := by
  induction scans with
  | done ended =>
    rcases skipLine ended ends more with ⟨_,same⟩ | ⟨last,_⟩
    · cases next with
      | done stop => exact .done (same.trans stop)
      | token skipped found next => exact .token (same.trans skipped) found next
    · cases last
  | @token chars start rest kind behind skipped found later ih =>
    rcases skipLine skipped ends more with ⟨rfl,_⟩ | ⟨last,same⟩
    · cases found
    · obtain ⟨filled,token⟩ := tokenLine found last more
      obtain ⟨_,_,whole⟩ := scanTokenReads found
      rw [whole] at last
      exact .token same token (ih (endsLineSuffix last filled))

theorem scansQuoted {quote} {kind : String → Token} {text after lexemes}
    (opens : ∀ rest,skip (quote :: rest) = some (quote :: rest)) (reads : ∀ rest,scanToken (quote :: rest) =
      (scanQuoted quote rest []).map fun found => (kind (String.ofList found.1),found.2))
    (other : after.head? ≠ some quote) (next : Scans after lexemes) :
    Scans ((quoted quote text).toList ++ after) (⟨(quoted quote text).toList ++ after,kind text,after⟩ :: lexemes) := by
  have written : (quoted quote text).toList ++ after = quote :: (escape quote text.toList ++ quote :: after) := by
    simp [quoted]
  refine .token ?_ ?_ next
  · rw [written]
    exact opens _
  · rw [written,reads,quotedBack other]
    simp

theorem tokenizeKinds (scans : Scans src.toList lexemes) :
    ∃ tokens,tokenize src = .ok tokens ∧ tokens.map SpannedToken.kind = lexemes.map Lexeme.kind ++ [.eof] := by
  refine ⟨_,tokenizeFollows.mpr ⟨lexemes,scans,rfl⟩,?_⟩
  rw [map_append,map_map]
  rfl

theorem tokenizeScans (read : tokenize src = .ok tokens) :
    ∃ lexemes,Scans src.toList lexemes ∧ tokens.map SpannedToken.kind = lexemes.map Lexeme.kind ++ [.eof] := by
  obtain ⟨lexemes,scans,rfl⟩ := tokenizeFollows.mp read
  refine ⟨lexemes,scans,?_⟩
  rw [map_append,map_map]
  rfl

theorem quotedBetween {quote} {kind : String → Token} {before text after tokens more}
    (opens : ∀ rest,skip (quote :: rest) = some (quote :: rest)) (reads : ∀ rest,scanToken (quote :: rest) =
      (scanQuoted quote rest []).map fun found => (kind (String.ofList found.1),found.2))
    (first : tokenize before = .ok tokens) (line : EndsLine before.toList) (second : tokenize after = .ok more)
    (other : after.toList.head? ≠ some quote) : ∃ all,tokenize (before ++ quoted quote text ++ after) = .ok all ∧
      all.map SpannedToken.kind =
        (tokens.map SpannedToken.kind).dropLast ++ kind text :: more.map SpannedToken.kind := by
  obtain ⟨left,scans,kinds⟩ := tokenizeScans first
  obtain ⟨right,later,others⟩ := tokenizeScans second
  have whole : (before ++ quoted quote text ++ after).toList = before.toList ++ ((quoted quote text).toList ++ after.toList) := by
    simp
  have all := scansAppend scans line (@scansQuoted _ quote kind text after.toList right opens reads other later)
  rw [← whole] at all
  obtain ⟨tokens,run,same⟩ := tokenizeKinds all
  refine ⟨tokens,run,?_⟩
  have kept : (left.map fun l => l.before ((quoted quote text).toList ++ after.toList)).map Lexeme.kind = left.map Lexeme.kind := by
    rw [map_map]
    rfl
  rw [same,kinds,others,dropLast_concat,map_append,kept,map_cons,append_assoc,cons_append]

theorem quotedCannotEscape {before after : String} {tokens more : List SpannedToken} (text : String)
    (first : tokenize before = .ok tokens) (line : before.toList.getLast? = some '\n')
    (second : tokenize after = .ok more) (blank : after.toList.head?.any isSpace = true) :
    (∃ all,tokenize (before ++ quoteLiteral text ++ after) = .ok all ∧ all.map SpannedToken.kind =
        (tokens.map SpannedToken.kind).dropLast ++ .string text :: more.map SpannedToken.kind) ∧
      ∃ all,tokenize (before ++ quoteIdent text ++ after) = .ok all ∧ all.map SpannedToken.kind =
          (tokens.map SpannedToken.kind).dropLast ++ .quotedIdent text :: more.map SpannedToken.kind := by
  have other {quote : Char} (filled : isSpace quote = false) : after.toList.head? ≠ some quote := by
    intro same
    rw [same,Option.any_some,filled] at blank
    cases blank
  refine ⟨?_,?_⟩
  · exact quotedBetween literalOpens (fun _ => rfl) first line second (other (by decide))
  · exact quotedBetween identOpens (fun _ => rfl) first line second (other (by decide))

/- A line break ends every token, so texts that end lines can be read apart. -/
theorem linesReadApart {before after : String} {tokens more : List SpannedToken} (first : tokenize before = .ok tokens)
    (line : before.toList.getLast? = some '\n') (second : tokenize after = .ok more) : ∃ all,tokenize (before ++ after) = .ok all ∧
      all.map SpannedToken.kind = (tokens.map SpannedToken.kind).dropLast ++ more.map SpannedToken.kind := by
  obtain ⟨left,scans,kinds⟩ := tokenizeScans first
  obtain ⟨right,later,others⟩ := tokenizeScans second
  have both := scansAppend scans line later
  rw [← String.toList_append] at both
  obtain ⟨all,run,same⟩ := tokenizeKinds both
  refine ⟨all,run,?_⟩
  rw [same,kinds,others,dropLast_concat,map_append,map_map,append_assoc]
  rfl

end

theorem doubledQuoteRead : (∃ all,@tokenize plainLetters ("\n" ++ quoteLiteral "it's" ++ " ") = .ok all ∧
      all.map SpannedToken.kind = [.string "it's",.eof]) ∧
      ∃ all,@tokenize plainLetters ("\n" ++ quoteIdent "it's" ++ " ") = .ok all ∧
        all.map SpannedToken.kind = [.quotedIdent "it's",.eof] :=
  @quotedCannotEscape plainLetters "\n" " " [⟨.eof,⟨1,1⟩⟩] [⟨.eof,⟨1,1⟩⟩] "it's" (by decide +kernel) (by decide)
    (by decide +kernel) (by decide)

theorem commentReadApart : ∃ all,@tokenize plainLetters ("--'\n" ++ "'x'") = .ok all ∧
    all.map SpannedToken.kind = [.string "x",.eof] :=
  @linesReadApart plainLetters "--'\n" "'x'" [⟨.eof,⟨4,4⟩⟩] [⟨.string "x",⟨0,3⟩⟩,⟨.eof,⟨3,3⟩⟩] (by decide +kernel)
    (by decide) (by decide +kernel)

end

end NoeDB.Scanner
