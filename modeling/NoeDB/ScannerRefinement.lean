import NoeDB.Scanner

/-! The byte cursor follows the characters: it stands at the start of one before every
step that looks at characters, so no step panics, and the tokens are those of the text. -/
namespace NoeDB.Scanner
open ByteString Text Keywords Lexer List UInt8 Option Cursor Nat

structure Placed (total : Nat) (c : Cursor) (chars : List Char) : Prop where
  rest : c.rest = encode chars
  pos : c.pos+(encode chars).length = total

theorem asciiInjective {a b : Char} (small : a.toNat < 128) (other : b.toNat < 128)
    (same : ofNat a.toNat = ofNat b.toNat) : a = b := by
  have codes := congrArg toNat same
  simp only [toNat_ofNat'] at codes
  refine Char.toNat_inj.mp ?_
  omega

theorem encodedHead {c : Char} (small : c.toNat < 128) (chars) :
    (encode chars).head? = some (ofNat c.toNat) ↔ chars.head? = some c := by
  cases chars with
  | nil => simp
  | cons first =>
    by_cases ascii : first.toNat < 128
    · simp only [encodeCons,encodedAscii ascii,cons_append,List.head?_cons,some.injEq]
      exact ⟨asciiInjective ascii small,fun same => by rw [same]⟩
    · obtain ⟨b,_,bytes,_⟩ := encodedFirst first
      have high : 128 ≤ b.toNat := encodedHigh (c := first) (by omega) (by rw [bytes]; exact mem_cons_self)
      simp only [encodeCons,bytes,cons_append,List.head?_cons,some.injEq]
      refine ⟨?_,?_⟩
      · rintro rfl
        simp only [toNat_ofNat'] at high
        omega
      · rintro rfl
        omega

def Agrees (test : UInt8 → Bool) (holds : Char → Bool) : Prop :=
  ∀ c,∀ b ∈ String.utf8EncodeChar c,test b = holds c

theorem onAsciiAgrees (high : ∀ b : UInt8,128 ≤ b.toNat → test b = false) : Agrees test (onAscii test) := by
  intro c b mem
  by_cases small : c.toNat < 128
  · rw [encodedAscii small,mem_singleton] at mem
    simp [onAscii,small,mem]
  · rw [high b (encodedHigh (by omega) mem)]
    simp [onAscii,small]

theorem spaceAgrees : Agrees isWhitespaceByte isSpace := by
  refine onAsciiAgrees ?_
  intro b high
  simp only [isWhitespaceByte,Bool.or_eq_false_iff,beq_eq_false_iff_ne]
  refine ⟨⟨⟨⟨⟨?_,?_⟩,?_⟩,?_⟩,?_⟩,?_⟩ <;> (rintro rfl; revert high; decide)

theorem digitAgrees : Agrees isDigitByte isDigit := by
  refine onAsciiAgrees ?_
  intro b _
  simp only [isDigitByte,decide_eq_false_iff_not,le_iff_toNat_le]
  intro digit
  have := digit.2
  simp only [reduceToNat] at this
  omega

theorem lineAgrees : Agrees (· ≠ 10) (· ≠ '\n') := by
  intro c b mem
  by_cases small : c.toNat < 128
  · rw [encodedAscii small,mem_singleton] at mem
    subst mem
    refine decide_eq_decide.mpr (not_congr ?_)
    exact ⟨fun same => asciiInjective small (by decide) same,fun same => by rw [same]; rfl⟩
  · have high := encodedHigh (by omega) mem
    have other : c ≠ '\n' := fun same => small (by rw [same]; decide)
    have byte : b ≠ 10 := fun same => by rw [same] at high; revert high; decide
    simp [other,byte]

theorem encodedTakeWhile (agrees : Agrees test holds) (chars) :
    (encode chars).takeWhile test = encode (chars.takeWhile holds) := by
  induction chars with
  | nil => rfl
  | cons first _ ih =>
    obtain ⟨b,_,bytes,_⟩ := encodedFirst first
    cases passes : holds first with
    | true =>
      have all : ∀ b ∈ String.utf8EncodeChar first,test b = true := fun b mem => (agrees first b mem).trans passes
      rw [encodeCons,takeWhile_append_of_pos all,ih,takeWhile_cons_of_pos passes,encodeCons]
    | false =>
      have byte : ¬test b = true := by
        rw [agrees first b (by rw [bytes]; exact mem_cons_self),passes]
        decide
      rw [encodeCons,bytes,cons_append,takeWhile_cons_of_neg byte,
        takeWhile_cons_of_neg (by rw [passes]; decide),encodeNil]

section

variable {total : Nat} {c : Cursor} {chars : List Char}

theorem Placed.advance {read rest} (placed : Placed total c (read ++ rest)) :
    Placed total (c.advance (encode read).length) rest := by
  refine ⟨?_,?_⟩
  · simp [Cursor.advance,placed.rest]
  · have := placed.pos
    simp only [encodeAppend,length_append] at this
    simp only [Cursor.advance]
    omega

theorem Placed.advanceOne {rest} (placed : Placed total c (first :: rest)) (small : first.toNat < 128) :
    Placed total (c.advance 1) rest := by
  have one : (encode [first]).length = 1 := by simp [encodedAscii small]
  have step := @Placed.advance total c [first] rest placed
  rwa [one] at step

theorem Placed.peek (placed : Placed total c chars) (small : k.toNat < 128) :
    c.peekByte = some (ofNat k.toNat) ↔ chars.head? = some k := by
  unfold peekByte
  rw [placed.rest]
  exact encodedHead small chars

theorem Placed.skipWhile (agrees : Agrees test holds)
    (placed : Placed total c chars) : Placed total (c.skipWhile test) (chars.dropWhile holds) := by
  unfold Cursor.skipWhile
  rw [placed.rest,encodedTakeWhile agrees]
  refine Placed.advance ?_
  rwa [takeWhile_append_dropWhile]

theorem Placed.peekTwo {a b} (placed : Placed total c chars) (small : a.toNat < 128) (other : b.toNat < 128) :
    (c.peekByte = some (ofNat a.toNat) ∧ c.peekByteAt 1 = some (ofNat b.toNat)) ↔ chars.take 2 = [a,b] := by
  rw [placed.peek small]
  cases chars with
  | nil => simp
  | cons first rest =>
    by_cases same : first = a
    · subst same
      have behind : c.peekByteAt 1 = (c.advance 1).peekByte := by simp [Cursor.peekByteAt,Cursor.peekByte,Cursor.advance]
      rw [behind,(placed.advanceOne small).peek other]
      cases rest <;> simp
    · simp [same]

theorem Placed.peekChar (placed : Placed total c chars) : c.peekChar = .ok chars.head? := by
  cases chars with
  | nil =>
    have empty : c.rest = [] := placed.rest
    simp [peekChar,empty]
  | cons first rest =>
    obtain ⟨b,more,bytes,_⟩ := encodedFirst first
    have start : c.rest = b :: (more ++ encode rest) := by rw [placed.rest,encodeCons,bytes,cons_append]
    have unbroken : ¬continues b = true := by
      rw [continuesIff]
      omega
    have whole : c.rest.toByteArray = (first :: rest).utf8Encode := by rw [placed.rest]; rfl
    have decoded : c.rest.toByteArray.utf8DecodeChar? 0 = some first := by
      rw [whole]
      exact utf8DecodeChar?_utf8Encode_cons
    unfold peekChar
    rw [start] at decoded ⊢
    simp [if_neg unbroken,decoded,List.head?_cons]

end

theorem blockEndHigh (high : ∀ b ∈ bytes,128 ≤ b.toNat) (more) :
    blockEnd (bytes ++ more) = (blockEnd more).map (·+bytes.length) := by
  induction bytes with
  | nil => cases closed : blockEnd more <;> simp [closed]
  | cons first rest ih =>
    have other : ¬(first = 42 ∧ (rest ++ more).head? = some 47) := by
      rintro ⟨rfl,_⟩
      have := high 42 mem_cons_self
      revert this
      decide
    rw [cons_append,blockEnd,if_neg other,ih (fun b mem => high b (mem_cons_of_mem _ mem)),Option.map_map]
    congr 1

theorem blockEndEncoded (chars) :
    match blockRest chars with
    | none => blockEnd (encode chars) = none
    | some rest => ∃ read,chars = read ++ rest ∧ blockEnd (encode chars) = some (encode read).length := by
  fun_induction blockRest chars with
  | case1 => rfl
  | case2 _ rest ends =>
    obtain ⟨rfl,slash⟩ := ends
    obtain ⟨second,others,rfl⟩ : ∃ second others,rest = second :: others := by
      cases rest with
      | nil => cases slash
      | cons second others => exact ⟨second,others,rfl⟩
    cases some.inj slash
    exact ⟨['*','/'],rfl,rfl⟩
  | case3 c rest goesOn ih =>
    have step : blockEnd (encode (c :: rest)) = (blockEnd (encode rest)).map (·+(String.utf8EncodeChar c).length) := by
      by_cases small : c.toNat < 128
      · have other : ¬(ofNat c.toNat = 42 ∧ (encode rest).head? = some 47) := by
          rintro ⟨star,slash⟩
          exact goesOn ⟨asciiInjective small (by decide) star,(encodedHead (c := '/') (by decide) rest).mp slash⟩
        simp only [encodeCons,encodedAscii small,cons_append,nil_append,blockEnd,if_neg other]
        rfl
      · exact blockEndHigh (fun b mem => encodedHigh (by omega) mem) (encode rest)
    cases closed : blockRest rest with
    | none =>
      simp only [closed] at ih ⊢
      rw [step,ih]
      rfl
    | some =>
      simp only [closed] at ih ⊢
      obtain ⟨read,rfl,ended⟩ := ih
      refine ⟨c :: read,rfl,?_⟩
      rw [step,ended]
      simp [add_comm]

theorem skipReads {rest} (skipped : skip chars = some rest) : ∃ read,chars = read ++ rest := by
  fun_induction skip chars with
  | case1 chars line ih =>
    obtain ⟨read,more⟩ := ih skipped
    obtain ⟨behind,spaced⟩ := twoTaken line
    rw [spaced] at more
    refine ⟨chars.takeWhile isSpace ++ '-' :: '-' :: behind.takeWhile (· ≠ '\n') ++ read,?_⟩
    rw [append_assoc,← more]
    conv_lhs => rw [← takeWhile_append_dropWhile (p := isSpace) (l := chars),spaced]
    simp
  | case2 chars _ block _ closed ih =>
    obtain ⟨read,more⟩ := ih skipped
    obtain ⟨_,spaced⟩ := twoTaken block
    have encoded := blockEndEncoded ((chars.dropWhile isSpace).drop 2)
    simp only [closed] at encoded
    rw [spaced,drop_succ_cons,drop_succ_cons,drop_zero] at encoded
    obtain ⟨comment,whole,_⟩ := encoded
    refine ⟨chars.takeWhile isSpace ++ '/' :: '*' :: comment ++ read,?_⟩
    rw [append_assoc,← more]
    conv_lhs => rw [← takeWhile_append_dropWhile (p := isSpace) (l := chars),spaced,whole]
    simp
  | case3 => cases skipped
  | case4 chars =>
    cases some.inj skipped
    exact ⟨chars.takeWhile isSpace,takeWhile_append_dropWhile.symm⟩

section

variable {total : Nat} {c : Cursor} {chars : List Char}

theorem Placed.opensLine (placed : Placed total c chars) :
    (c.peekByte = some 45 ∧ c.peekByteAt 1 = some 45) ↔ chars.take 2 = ['-','-'] :=
  placed.peekTwo (a := '-') (b := '-') (by decide) (by decide)

theorem Placed.opensBlock (placed : Placed total c chars) :
    (c.peekByte = some 47 ∧ c.peekByteAt 1 = some 42) ↔ chars.take 2 = ['/','*'] :=
  placed.peekTwo (a := '/') (b := '*') (by decide) (by decide)

theorem Placed.advanceTwo (placed : Placed total c chars) (two : chars.take 2 = [a,b])
    (small : a.toNat < 128) (other : b.toNat < 128) : Placed total (c.advance 2) (chars.drop 2) := by
  obtain ⟨behind,rfl⟩ := twoTaken two
  have length : (encode [a,b]).length = 2 := by simp [encodedAscii small,encodedAscii other]
  have step := @Placed.advance total c [a,b] behind placed
  rwa [length] at step

theorem skipTriviaFollows (placed : Placed total c chars) (enough : chars.length < fuel) :
    match skip chars with
    | none => ∃ fault,skipTrivia fuel c = .error fault
    | some rest => ∃ d,skipTrivia fuel c = .ok d ∧ Placed total d rest := by
  obtain ⟨fuel,rfl⟩ : ∃ n,fuel = n+1 := ⟨fuel-1,by omega⟩
  have spaced := placed.skipWhile spaceAgrees
  fun_induction skip chars generalizing fuel c with
  | case1 _ line ih =>
    have opened := spaced.advanceTwo line (by decide) (by decide)
    have shorter := lineShorter line
    obtain ⟨fuel,rfl⟩ : ∃ n,fuel = n+1 := ⟨fuel-1,by omega⟩
    have landed := opened.skipWhile lineAgrees
    rw [skipTrivia]
    simp only [if_pos (spaced.opensLine.mpr line)]
    exact ih landed fuel (by omega) (landed.skipWhile spaceAgrees)
  | case2 chars unlined block _ closed ih =>
    have opened := spaced.advanceTwo block (by decide) (by decide)
    have ended := blockEndEncoded ((chars.dropWhile isSpace).drop 2)
    simp only [closed] at ended
    obtain ⟨_,whole,length⟩ := ended
    have shorter := blockShorter block closed
    obtain ⟨fuel,rfl⟩ : ∃ n,fuel = n+1 := ⟨fuel-1,by omega⟩
    rw [← opened.rest] at length
    rw [whole] at opened
    rw [skipTrivia]
    simp only [if_neg (mt spaced.opensLine.mp unlined),if_pos (spaced.opensBlock.mpr block),skipBlockComment,length]
    exact ih opened.advance fuel (by omega) (opened.advance.skipWhile spaceAgrees)
  | case3 chars unlined block unclosed =>
    have opened := spaced.advanceTwo block (by decide) (by decide)
    have ended := blockEndEncoded ((chars.dropWhile isSpace).drop 2)
    simp only [unclosed] at ended
    rw [← opened.rest] at ended
    rw [skipTrivia]
    simp only [if_neg (mt spaced.opensLine.mp unlined),if_pos (spaced.opensBlock.mpr block),skipBlockComment,ended]
    exact ⟨_,rfl⟩
  | case4 _ unlined unblocked =>
    refine ⟨c.skipWhile isWhitespaceByte,?_,spaced⟩
    rw [skipTrivia]
    simp [if_neg (mt spaced.opensLine.mp unlined),if_neg (mt spaced.opensBlock.mp unblocked)]

theorem Placed.between {d read rest} (placed : Placed total c (read ++ rest))
    (later : Placed total d rest) : c.rest.take (d.pos-c.pos) = encode read := by
  have start := placed.pos
  have stop := later.pos
  rw [encodeAppend,length_append] at start
  have length : d.pos-c.pos = (encode read).length := by omega
  rw [length,placed.rest,encodeAppend,take_left]

theorem sizeAtLeast (chars) : chars.length ≤ (encode chars).length := by
  induction chars with
  | nil => exact le_refl 0
  | cons first =>
    obtain ⟨b,_,bytes,_⟩ := encodedFirst first
    simp only [encodeCons,bytes,cons_append,length_cons,length_append]
    omega

theorem Placed.advanceChar {rest} (placed : Placed total c (first :: rest)) :
    Placed total (c.advance first.utf8Size) rest := by
  have length : (encode [first]).length = first.utf8Size := by simp [String.length_utf8EncodeChar]
  have step := @Placed.advance total c [first] rest placed
  rwa [length] at step

section

variable [Unicode]

theorem skipIdentFollows (placed : Placed total c chars) (enough : chars.length ≤ fuel) :
    ∃ d,skipIdent fuel c = .ok d ∧ Placed total d (chars.dropWhile continuesIdent) := by
  induction chars generalizing c fuel with
  | nil =>
    refine ⟨c,?_,placed⟩
    cases fuel with
    | zero => rfl
    | succ =>
      simp only [skipIdent,placed.peekChar,bind,Except.bind]
      rfl
  | cons first _ ih =>
    obtain ⟨fuel,rfl⟩ : ∃ n,fuel = n+1 := ⟨fuel-1,by simp only [length_cons] at enough; omega⟩
    cases goesOn : continuesIdent first with
    | true =>
      obtain ⟨d,run,_⟩ := ih placed.advanceChar (by simp only [length_cons] at enough; omega : _ ≤ fuel)
      refine ⟨d,?_,by rwa [dropWhile_cons_of_pos goesOn]⟩
      simp only [skipIdent,placed.peekChar,List.head?_cons,bind,Except.bind,goesOn,if_true]
      exact run
    | false =>
      refine ⟨c,?_,by rwa [dropWhile_cons_of_neg (by rw [goesOn]; decide)]⟩
      simp only [skipIdent,placed.peekChar,List.head?_cons,bind,Except.bind,goesOn]
      rfl

theorem identifierFollows {rest} (placed : Placed total c (first :: rest)) : ∃ d,lexIdentifierOrKeyword c =
        .ok (⟨wordKind (first :: rest.takeWhile continuesIdent),mkSpan c d⟩,d) ∧
      Placed total d (rest.dropWhile continuesIdent) := by
  have opened := placed.advanceChar
  have enough : rest.length ≤ (c.advance first.utf8Size).rest.length := by
    rw [opened.rest]
    exact sizeAtLeast rest
  obtain ⟨d,run,landed⟩ := skipIdentFollows opened enough
  have word : c.rest.take (d.pos-c.pos) = encode (first :: rest.takeWhile continuesIdent) := by
    refine Placed.between ?_ landed
    rwa [cons_append,takeWhile_append_dropWhile]
  refine ⟨d,?_,landed⟩
  simp only [lexIdentifierOrKeyword,placed.peekChar,List.head?_cons,bind,Except.bind,run,word,wordKind]
  cases Keywords.lookup (encode (first :: rest.takeWhile continuesIdent)) <;> rfl

end

theorem quotedFollows (unterminated : LexErrorKind) (start) (value)
    (small : quote.toNat < 128) (placed : Placed total c chars) (enough : chars.length < fuel) :
    match scanQuoted quote chars value with
    | none => ∃ fault,lexQuoted (ofNat quote.toNat) unterminated start fuel c value = .error fault
    | some found => ∃ d,lexQuoted (ofNat quote.toNat) unterminated start fuel c value =
        .ok (String.ofList found.1,d) ∧ Placed total d found.2 := by
  have written : Char.ofNat (ofNat quote.toNat).toNat = quote := by
    rw [toNat_ofNat',mod_eq_of_lt (by omega)]
    exact Char.ofNat_toNat quote
  have filled {d : Cursor} {first : Char} {rest : List Char} (placed : Placed total d (first :: rest)) : d.rest ≠ [] := by
    obtain ⟨b,_,bytes,_⟩ := encodedFirst first
    rw [placed.rest,encodeCons,bytes]
    exact cons_ne_nil _ _
  obtain ⟨fuel,rfl⟩ : ∃ n,fuel = n+1 := ⟨fuel-1,by omega⟩
  fun_induction scanQuoted quote chars value generalizing fuel c with
  | case1 =>
    have empty : c.rest = [] := placed.rest
    simp only [lexQuoted,if_pos empty]
    exact ⟨_,rfl⟩
  | case2 =>
    have next := placed.advanceOne small
    have unquoted : ¬(c.advance 1).peekByte = some (ofNat quote.toNat) := by simp [next.peek small]
    refine ⟨c.advance 1,?_,next⟩
    simp [lexQuoted,if_neg (filled placed),if_pos ((placed.peek small).mpr rfl),if_neg unquoted]
  | case3 first _ other =>
    have unquoted : ¬c.peekByte = some (ofNat quote.toNat) := by simpa [placed.peek small] using other
    have empty : (c.advance first.utf8Size).rest = [] := placed.advanceChar.rest
    simp only [lexQuoted,if_neg (filled placed),if_neg unquoted,placed.peekChar,List.head?_cons,bind,Except.bind]
    cases fuel with
    | zero => exact ⟨_,rfl⟩
    | succ =>
      simp only [lexQuoted,if_pos empty]
      exact ⟨_,rfl⟩
  | case4 _ _ ih =>
    have next := placed.advanceOne small
    obtain ⟨fuel,rfl⟩ : ∃ n,fuel = n+1 := ⟨fuel-1,by simp only [length_cons] at enough; omega⟩
    have after := ih (next.advanceOne small) fuel (by simp only [length_cons] at enough; omega)
    rw [lexQuoted]
    simp only [if_neg (filled placed),if_pos ((placed.peek small).mpr rfl),if_pos ((next.peek small).mpr rfl),written]
    exact after
  | case5 _ _ _ other =>
    have next := placed.advanceOne small
    have unquoted : ¬(c.advance 1).peekByte = some (ofNat quote.toNat) := by simpa [next.peek small] using other
    refine ⟨c.advance 1,?_,next⟩
    simp [lexQuoted,if_neg (filled placed),if_pos ((placed.peek small).mpr rfl),if_neg unquoted]
  | case6 _ _ _ _ other ih =>
    have unquoted : ¬c.peekByte = some (ofNat quote.toNat) := by simpa [placed.peek small] using other
    obtain ⟨fuel,rfl⟩ : ∃ n,fuel = n+1 := ⟨fuel-1,by simp only [length_cons] at enough; omega⟩
    have after := ih placed.advanceChar fuel (by simp only [length_cons] at enough ⊢; omega)
    rw [lexQuoted]
    simp only [if_neg (filled placed),if_neg unquoted,placed.peekChar,List.head?_cons,bind,Except.bind]
    exact after

theorem encodePlain (small : ∀ c ∈ text,plain c = true) : encode text = text.map fun c => ofNat c.toNat := by
  induction text with
  | nil => rfl
  | cons first _ ih =>
    have low : first.toNat < 128 := by
      have := small first mem_cons_self
      simp only [plain,Bool.and_eq_true,decide_eq_true_eq] at this
      exact this.1
    rw [encodeCons,encodedAscii low,singleton_append,map_cons,ih fun c mem => small c (mem_cons_of_mem _ mem)]

theorem stopsBehindPlain (chars : List Char) : Stops (encode (chars.dropWhile plain)) := by
  cases rest : chars.dropWhile plain with
  | nil => exact stopsNil
  | cons first =>
    have broken : ¬plain first = true := by
      have := List.head?_dropWhile_not plain chars
      rw [rest] at this
      simpa using this
    obtain ⟨b,_,bytes,_⟩ := encodedFirst first
    rw [encodeCons,bytes]
    refine stopsCons ?_
    by_cases small : first.toNat < 128
    · have line : first = '\n' := by
        by_contra other
        exact broken (by simp [plain,small,other])
      rw [line] at bytes
      rw [← (cons.inj bytes).1]
      decide
    · have high : 128 ≤ b.toNat := encodedHigh (c := first) (by omega) (by rw [bytes]; exact mem_cons_self)
      simp only [breaks,Bool.or_eq_true,decide_eq_true_eq,le_iff_toNat_le]
      exact .inr high

theorem wordBytes (chars : List Char) : (encode (chars.takeWhile plain)).length = (chars.takeWhile plain).length := by
  rw [encodePlain fun c mem => all_eq_true.mp all_takeWhile c mem,length_map]

theorem wordFollows {lex} (placed : Placed total c chars) (read : Local lex (encode (chars.takeWhile plain)) o) :
    match readWord lex chars with
    | none => ∃ fault,lex c = .error fault
    | some found => ∃ d,lex c = .ok (⟨found.1,mkSpan c d⟩,d) ∧ Placed total d found.2 := by
  have whole : c = ⟨encode (chars.takeWhile plain) ++ encode (chars.dropWhile plain),c.pos⟩ := by
    rw [← encodeAppend,takeWhile_append_dropWhile,← placed.rest]
  have stops := stopsBehindPlain chars
  cases read with
  | refuses same =>
    obtain ⟨kind,_,alone⟩ := same [] 0 stopsNil
    obtain ⟨_,_,failed⟩ := same _ c.pos stops
    rw [append_nil] at alone
    simp only [readWord,alone]
    exact ⟨_,by rw [whole]; exact failed⟩
  | @reads kind n positive short inner same =>
    have alone := same [] 0 stopsNil
    have run := same _ c.pos stops
    rw [append_nil] at alone
    rw [← whole] at run
    simp only [readWord,alone,within,zero_add]
    refine ⟨within (encode (chars.takeWhile plain)) (encode (chars.dropWhile plain)) c.pos n,run,?_⟩
    rw [wordBytes] at short
    have split : chars = (chars.takeWhile plain).take n ++ chars.drop n := by
      have taken : (chars.takeWhile plain).take n = chars.take n := by
        conv_rhs => rw [← takeWhile_append_dropWhile (p := plain) (l := chars)]
        rw [take_append_of_le_length short]
      rw [taken,take_append_drop]
    have length : (encode ((chars.takeWhile plain).take n)).length = n := by
      rw [encodePlain fun c mem => all_eq_true.mp all_takeWhile c (mem_of_mem_take mem),length_map,length_take,
        min_eq_left short]
    have step : Placed total (c.advance n) (chars.drop n) := by
      rw [split] at placed
      have := placed.advance
      rwa [length] at this
    have landed : within (encode (chars.takeWhile plain)) (encode (chars.dropWhile plain)) c.pos n = c.advance n := by
      rw [← advanceStart (by rwa [wordBytes]),← whole]
    rw [landed]
    exact step

theorem wordLength {lex rest}
    (read : Local lex (encode (chars.takeWhile plain)) o) (found : readWord lex chars = some (kind,rest)) :
    kind.isWord = true ∧ ∃ n,0 < n ∧ n ≤ (chars.takeWhile plain).length ∧ rest = chars.drop n ∧
      ∀ other,other.takeWhile plain = chars.takeWhile plain → readWord lex other = some (kind,other.drop n) := by
  cases read with
  | refuses same =>
    obtain ⟨_,_,alone⟩ := same [] 0 stopsNil
    rw [append_nil] at alone
    simp only [readWord,alone] at found
    cases found
  | @reads kind n positive short inner same =>
    have alone := same [] 0 stopsNil
    rw [append_nil] at alone
    simp only [readWord,alone,within,zero_add] at found
    cases some.inj found
    rw [wordBytes] at short
    refine ⟨inner,n,positive,short,rfl,?_⟩
    intro _ same
    simp [readWord,same,alone,within,zero_add]

theorem wordReads {lex rest}
    (read : Local lex (encode (chars.takeWhile plain)) o) (found : readWord lex chars = some (kind,rest)) :
    ∃ text,text ≠ [] ∧ chars = text ++ rest := by
  obtain ⟨_,n,_,_,rfl,_⟩ := wordLength read found
  have bound : (chars.takeWhile plain).length ≤ chars.length := (takeWhile_sublist _).length_le
  refine ⟨chars.take n,?_,(take_append_drop n chars).symm⟩
  intro none
  have := congrArg length none
  rw [length_take,length_nil] at this
  omega

theorem plainFirst {rest} (small : first.toNat < 128) (same : first ≠ '\n') :
    encode ((first :: rest).takeWhile plain) = ofNat first.toNat :: encode (rest.takeWhile plain) := by
  have holds : plain first = true := by simp [plain,small,same]
  rw [takeWhile_cons_of_pos holds,encodeCons,encodedAscii small,singleton_append]

theorem digitPlain (digit : isDigit first = true) : first.toNat < 128 ∧ first ≠ '\n' := by
  simp only [isDigit,onAscii,Bool.and_eq_true,decide_eq_true_eq] at digit
  refine ⟨digit.1,?_⟩
  rintro rfl
  exact absurd digit.2 (by decide)

theorem operatorPlain (starts : onAscii isOperatorOrPunctStart first = true) :
    first.toNat < 128 ∧ first ≠ '\n' := by
  simp only [onAscii,Bool.and_eq_true,decide_eq_true_eq] at starts
  refine ⟨starts.1,?_⟩
  rintro rfl
  exact absurd starts.2 (by decide)

theorem digitWord (rest) (digit : isDigit first = true) :
    ∃ o,Local (lexNumberFast (ofNat first.toNat)) (encode ((first :: rest).takeWhile plain)) o := by
  obtain ⟨small,same⟩ := digitPlain digit
  rw [plainFirst small same]
  simp only [isDigit,onAscii,Bool.and_eq_true] at digit
  exact numberFastLocal digit.2

theorem pointWord (rest) : ∃ o,Local lexNumber (encode (('.' :: rest).takeWhile plain)) o := by
  exact numberLocal (.inl rfl)

theorem operatorWord (rest) (starts : onAscii isOperatorOrPunctStart first = true) :
    ∃ o,Local lexOperatorOrPunct (encode ((first :: rest).takeWhile plain)) o := by
  obtain ⟨small,same⟩ := operatorPlain starts
  rw [plainFirst small same]
  simp only [onAscii,Bool.and_eq_true] at starts
  exact operatorLocal _ starts.2

theorem quotedTokenFollows {rest} (unterminated : LexErrorKind) (kind : String → Token)
    (small : quote.toNat < 128) (placed : Placed total c (quote :: rest)) :
    let token : Lexed (SpannedToken × Cursor) := do
      let (value,stop) ← lexQuoted (ofNat quote.toNat) unterminated c ((c.advance 1).rest.length+1) (c.advance 1) []
      .ok (⟨kind value,mkSpan c stop⟩,stop)
    match (scanQuoted quote rest []).map fun found => (kind (String.ofList found.1),found.2) with
    | none => ∃ fault,token = .error fault
    | some found => ∃ d,token = .ok (⟨found.1,mkSpan c d⟩,d) ∧ Placed total d found.2 := by
  intro token
  have opened := placed.advanceOne small
  have enough : rest.length < (c.advance 1).rest.length+1 := by
    rw [opened.rest]
    exact lt_succ_of_le (sizeAtLeast rest)
  have follows := quotedFollows unterminated c [] small opened enough
  cases found : scanQuoted quote rest [] with
  | none =>
    simp only [found] at follows
    obtain ⟨fault,failed⟩ := follows
    refine ⟨fault,?_⟩
    simp [token,failed,bind,Except.bind]
  | some =>
    simp only [found] at follows
    obtain ⟨d,run,landed⟩ := follows
    refine ⟨d,?_,landed⟩
    simp [token,run,bind,Except.bind]

theorem quotedReads
    (scanned : scanQuoted quote chars value = some found) : ∃ text,text ≠ [] ∧ chars = text ++ found.2 := by
  fun_induction scanQuoted quote chars value with
  | case1 | case3 => cases scanned
  | case2 | case5 =>
    cases some.inj scanned
    exact ⟨[quote],cons_ne_nil _ _,rfl⟩
  | case4 _ _ ih =>
    obtain ⟨text,_,whole⟩ := ih scanned
    exact ⟨quote :: quote :: text,cons_ne_nil _ _,by rw [whole]; rfl⟩
  | case6 first _ _ _ _ ih =>
    obtain ⟨text,_,whole⟩ := ih scanned
    exact ⟨first :: text,cons_ne_nil _ _,by rw [whole]; rfl⟩

def Lexeme.spanned (total : Nat) (l : Lexeme) : SpannedToken :=
  ⟨l.kind,⟨(total-(encode l.start).length)%2^32,(total-(encode l.rest).length)%2^32⟩⟩

theorem Placed.span {rest} (placed : Placed total c start) (later : Placed total d rest) :
    mkSpan c d = ⟨(total-(encode start).length)%2^32,(total-(encode rest).length)%2^32⟩ := by
  have first := placed.pos
  have last := later.pos
  unfold mkSpan
  rw [show c.pos = total-(encode start).length by omega,show d.pos = total-(encode rest).length by omega]

section

variable [Unicode]

theorem letterStarts {first : Char} (mem : b ∈ String.utf8EncodeChar first)
    (letter : isIdentStartByte b = true) : startsIdent first = true := by
  have low : b.toNat ≤ 122 := by
    simp only [isIdentStartByte,decide_eq_true_eq,le_iff_toNat_le] at letter
    rcases letter with ⟨_,bound⟩ | ⟨_,bound⟩ | rfl
    · exact bound
    · exact le_trans bound (by decide)
    · decide
  have small : first.toNat < 128 := by
    by_contra large
    have := encodedHigh (by omega) mem
    omega
  rw [encodedAscii small,mem_singleton] at mem
  have code : b.toNat = first.toNat := by rw [mem,toNat_ofNat',mod_eq_of_lt (by omega)]
  simp only [isIdentStartByte,decide_eq_true_eq,le_iff_toNat_le,code] at letter
  have bounds (low high : Char) (lower : low.toNat ≤ first.toNat) (upper : first.toNat ≤ high.toNat) :
      low ≤ first ∧ first ≤ high := ⟨Char.le_def.mpr (by exact lower),Char.le_def.mpr (by exact upper)⟩
  simp only [startsIdent,isAlphabetic,Bool.or_eq_true,Bool.and_eq_true,decide_eq_true_eq,beq_iff_eq]
  rcases letter with ⟨lower,upper⟩ | ⟨lower,upper⟩ | same
  · exact .inr (.inl (.inl (bounds 'a' 'z' lower upper)))
  · exact .inr (.inl (.inr (bounds 'A' 'Z' lower upper)))
  · rw [mem] at same
    exact .inl (asciiInjective small (by decide) same)

theorem tokenFollows {rest} (placed : Placed total c (first :: rest)) (peeked : c.peekByte = some b) :
    match scanToken (first :: rest) with
    | none => ∃ fault,lexToken b c = .error fault
    | some found => ∃ d,lexToken b c = .ok (⟨found.1,mkSpan c d⟩,d) ∧ Placed total d found.2 := by
  have mem : b ∈ String.utf8EncodeChar first := by
    obtain ⟨byte,more,bytes,_⟩ := encodedFirst first
    unfold peekByte at peeked
    rw [placed.rest,encodeCons,bytes] at peeked
    rw [bytes,← some.inj peeked]
    exact mem_cons_self
  have ident : isUnicodeIdentStart c = .ok (startsIdent first) := by
    simp [isUnicodeIdentStart,placed.peekChar,Except.map,List.head?_cons,any_some]
  have quoteByte {k : Char} (small : k.toNat < 128) : b = ofNat k.toNat ↔ first = k := by
    have := placed.peek small
    rw [peeked] at this
    simpa using this
  cases word : startsIdent first with
  | true =>
    obtain ⟨d,run,landed⟩ := identifierFollows placed
    simp only [scanToken,word,if_true]
    refine ⟨d,?_,landed⟩
    simp [lexToken,ident,word,bind,Except.bind,run]
  | false =>
    have letter : ¬isIdentStartByte b = true := fun letter => by
      rw [letterStarts mem letter] at word
      cases word
    simp only [scanToken,word,lexToken,ident,bind,Except.bind,Bool.false_eq_true,if_false,if_neg letter]
    by_cases digit : isDigit first = true
    · have byte : isDigitByte b = true := (digitAgrees first b mem).trans digit
      have code : b = ofNat first.toNat := (quoteByte (digitPlain digit).1).mpr rfl
      obtain ⟨o,read⟩ := digitWord rest digit
      have follows := wordFollows placed read
      rw [if_pos digit]
      simp only [if_pos byte]
      rw [code]
      exact follows
    have undigit : ¬isDigitByte b = true := by
      rw [digitAgrees first b mem]
      exact digit
    simp only [if_neg digit,if_neg undigit]
    by_cases quote : first = '\''
    · subst quote
      have byte : b = 39 := (quoteByte (k := '\'') (by decide)).mpr rfl
      have follows := quotedTokenFollows .unterminatedString Token.string (by decide) placed
      simp only [if_pos byte]
      exact follows
    have unquote : ¬b = 39 := mt (quoteByte (k := '\'') (by decide)).mp quote
    simp only [if_neg quote,if_neg unquote]
    by_cases double : first = '"'
    · subst double
      have byte : b = 34 := (quoteByte (k := '"') (by decide)).mpr rfl
      have follows := quotedTokenFollows .unterminatedQuotedIdent Token.quotedIdent (by decide) placed
      simp only [if_pos byte]
      exact follows
    have undouble : ¬b = 34 := mt (quoteByte (k := '"') (by decide)).mp double
    simp only [if_neg double,if_neg undouble]
    have point : (b = 46 ∧ c.atDigit 1 = true) ↔ (first = '.' ∧ rest.head?.any isDigit = true) := by
      rw [show (46 : UInt8) = ofNat '.'.toNat from rfl,quoteByte (by decide)]
      refine and_congr_right ?_
      rintro rfl
      have next := placed.advanceOne (by decide)
      have behind : c.atDigit 1 = (encode rest).head?.any isDigitByte := by
        rw [← next.rest]
        simp [atDigit,peekByteAt,advance]
      rw [behind]
      cases rest with
      | nil => rfl
      | cons second =>
        obtain ⟨byte,_,bytes,_⟩ := encodedFirst second
        simp only [encodeCons,bytes,cons_append,List.head?_cons,any_some]
        rw [digitAgrees second byte (by rw [bytes]; exact mem_cons_self)]
    by_cases pointed : first = '.' ∧ rest.head?.any isDigit = true
    · obtain ⟨rfl,behind⟩ := pointed
      obtain ⟨o,read⟩ := pointWord rest
      have follows := wordFollows placed read
      rw [if_pos ⟨rfl,behind⟩]
      simp only [if_pos (point.mpr ⟨rfl,behind⟩)]
      exact follows
    simp only [if_neg pointed,if_neg (mt point.mp pointed)]
    have starts : isOperatorOrPunctStart b = onAscii isOperatorOrPunctStart first := by
      refine onAsciiAgrees ?_ first b mem
      intro b high
      simp only [isOperatorOrPunctStart,mem_cons,not_mem_nil,or_false,decide_eq_false_iff_not]
      intro found
      rcases found with rfl | rfl | rfl | rfl | rfl | rfl | rfl | rfl | rfl | rfl | rfl | rfl | rfl | rfl | rfl <;>
        revert high <;> decide
    cases operator : onAscii isOperatorOrPunctStart first with
    | true =>
      obtain ⟨o,read⟩ := operatorWord rest operator
      have follows := wordFollows placed read
      simp only [starts,operator,if_true]
      exact follows
    | false =>
      simp only [starts,operator,Bool.false_eq_true,if_false]
      exact ⟨_,rfl⟩

theorem scanTokenReads {rest} (found : scanToken start = some (kind,rest)) :
    ∃ text,text ≠ [] ∧ start = text ++ rest := by
  cases start with
  | nil => cases found
  | cons first others =>
    have quoted {quote} {token : List Char × List Char → Token}
        (found : (scanQuoted quote others []).map (fun read => (token read,read.2)) = some (kind,rest)) :
        ∃ text,text ≠ [] ∧ first :: others = text ++ rest := by
      obtain ⟨_,scanned,same⟩ := map_eq_some_iff.mp found
      obtain ⟨_,rfl⟩ := Prod.mk.inj same
      obtain ⟨text,_,whole⟩ := quotedReads scanned
      exact ⟨first :: text,cons_ne_nil _ _,by rw [whole]; rfl⟩
    simp only [scanToken] at found
    split at found
    · obtain ⟨_,rfl⟩ := Prod.mk.inj (some.inj found)
      exact ⟨first :: others.takeWhile continuesIdent,cons_ne_nil _ _,by simp⟩
    split at found
    · rename_i digit
      obtain ⟨o,read⟩ := digitWord others digit
      exact wordReads read found
    split at found
    · exact quoted found
    split at found
    · exact quoted found
    split at found
    · rename_i pointed
      obtain ⟨rfl,_⟩ := pointed
      obtain ⟨o,read⟩ := pointWord others
      exact wordReads read found
    split at found
    · rename_i operator
      obtain ⟨o,read⟩ := operatorWord others operator
      exact wordReads read found
    · cases found

theorem nextTokenFollows (placed : Placed total c chars) :
    match skip chars with
    | none => ∃ fault,nextToken c = .error fault
    | some [] => ∃ d,nextToken c = .ok (none,d)
    | some start =>
        match scanToken start with
        | none => ∃ fault,nextToken c = .error fault
        | some found => ∃ d,nextToken c = .ok (some (Lexeme.spanned total ⟨start,found.1,found.2⟩),d) ∧
            Placed total d found.2 := by
  have enough : chars.length < c.rest.length+1 := by
    rw [placed.rest]
    exact lt_succ_of_le (sizeAtLeast chars)
  have trivia := skipTriviaFollows placed enough
  cases skipped : skip chars with
  | none =>
    simp only [skipped] at trivia
    obtain ⟨fault,failed⟩ := trivia
    exact ⟨fault,by simp [nextToken,failed,bind,Except.bind]⟩
  | some start =>
    simp only [skipped] at trivia
    obtain ⟨a,run,landed⟩ := trivia
    cases start with
    | nil =>
      have none : a.peekByte = none := by simp [peekByte,landed.rest]
      exact ⟨a,by simp [nextToken,run,none,bind,Except.bind]⟩
    | cons first rest =>
      obtain ⟨b,_,bytes,_⟩ := encodedFirst first
      have peeked : a.peekByte = some b := by simp [peekByte,landed.rest,bytes]
      have token := tokenFollows landed peeked
      cases found : scanToken (first :: rest) with
      | none =>
        simp only [found] at token ⊢
        obtain ⟨fault,failed⟩ := token
        exact ⟨fault,by simp [nextToken,run,peeked,failed,bind,Except.bind]⟩
      | some =>
        simp only [found] at token ⊢
        obtain ⟨d,read,behind⟩ := token
        refine ⟨d,?_,behind⟩
        simp only [nextToken,run,peeked,read,bind,Except.bind]
        rw [landed.span behind]
        rfl

theorem Scans.unique (scans : Scans chars left) (other : Scans chars right) : left = right := by
  induction scans generalizing right with
  | done ended =>
    cases other with
    | done => rfl
    | token skipped found =>
      rw [ended] at skipped
      cases some.inj skipped
      cases found
  | token skipped found _ ih =>
    cases other with
    | done ended =>
      rw [ended] at skipped
      cases some.inj skipped
      cases found
    | token skipped' found' next' =>
      cases some.inj (skipped.symm.trans skipped')
      obtain ⟨rfl,rfl⟩ := Prod.mk.inj (some.inj (found.symm.trans found'))
      rw [ih next']

theorem readsShorter {rest} (skipped : skip chars = some start)
    (found : scanToken start = some (kind,rest)) : rest.length < chars.length := by
  obtain ⟨_,rfl⟩ := skipReads skipped
  obtain ⟨_,filled,rfl⟩ := scanTokenReads found
  have := length_pos_iff.mpr filled
  simp only [length_append]
  omega

theorem tokensFollow (placed : Placed total c chars) (enough : chars.length < fuel) :
    tokensFrom fuel c = .ok tokens ↔ ∃ lexemes,Scans chars lexemes ∧ tokens = lexemes.map (Lexeme.spanned total) := by
  induction fuel generalizing c chars tokens with
  | zero => omega
  | succ fuel ih =>
    have next := nextTokenFollows placed
    cases skipped : skip chars with
    | none =>
      simp only [skipped] at next
      obtain ⟨fault,failed⟩ := next
      simp only [tokensFrom,failed,bind,Except.bind,reduceCtorEq,false_iff]
      rintro ⟨lexemes,scans,_⟩
      cases scans with
      | done ended | token ended => cases skipped.symm.trans ended
    | some start =>
      cases start with
      | nil =>
        simp only [skipped] at next
        obtain ⟨d,run⟩ := next
        simp only [tokensFrom,run,bind,Except.bind,Except.ok.injEq]
        refine ⟨fun same => ⟨[],.done skipped,same.symm⟩,?_⟩
        rintro ⟨lexemes,scans,rfl⟩
        rw [scans.unique (.done skipped)]
        rfl
      | cons first others =>
        cases found : scanToken (first :: others) with
        | none =>
          simp only [skipped,found] at next
          obtain ⟨_,failed⟩ := next
          simp only [tokensFrom,failed,bind,Except.bind,reduceCtorEq,false_iff]
          rintro ⟨lexemes,scans,_⟩
          cases scans with
          | done ended => cases skipped.symm.trans ended
          | token started token =>
            cases some.inj (skipped.symm.trans started)
            cases found.symm.trans token
        | some result =>
          simp only [skipped,found] at next
          obtain ⟨d,run,landed⟩ := next
          have shorter := readsShorter skipped found
          have later {more : List SpannedToken} : tokensFrom fuel d = .ok more ↔
              ∃ lexemes,Scans result.2 lexemes ∧ more = lexemes.map (Lexeme.spanned total) := ih landed (by omega)
          simp only [tokensFrom,run,bind,Except.bind]
          refine ⟨?_,?_⟩
          · intro read
            cases rest : tokensFrom fuel d with
            | error => simp [rest] at read
            | ok =>
              obtain ⟨lexemes,scans,rfl⟩ := later.mp rest
              simp only [rest,Except.ok.injEq] at read
              exact ⟨_,.token skipped found scans,read.symm⟩
          · rintro ⟨_,scans,rfl⟩
            cases scans with
            | done ended => cases skipped.symm.trans ended
            | token started token scans =>
              cases some.inj (skipped.symm.trans started)
              cases some.inj (found.symm.trans token)
              rw [later.mpr ⟨_,scans,rfl⟩]
              rfl

theorem tokenizeFollows : tokenize src = .ok tokens ↔ ∃ lexemes,Scans src.toList lexemes ∧
      tokens = lexemes.map (Lexeme.spanned (utf8 src).length) ++
        [⟨.eof,⟨(utf8 src).length%2^32,(utf8 src).length%2^32⟩⟩] := by
  have placed : Placed (utf8 src).length ⟨utf8 src,0⟩ src.toList := ⟨rfl,zero_add _⟩
  have enough : src.toList.length < (utf8 src).length+1 := lt_succ_of_le (sizeAtLeast src.toList)
  have follow {more : List SpannedToken} : tokensFrom ((utf8 src).length+1) ⟨utf8 src,0⟩ = .ok more ↔
      ∃ lexemes,Scans src.toList lexemes ∧ more = lexemes.map (Lexeme.spanned (utf8 src).length) :=
    tokensFollow placed enough
  simp only [tokenize,bind,Except.bind]
  refine ⟨?_,?_⟩
  · intro read
    cases inner : tokensFrom ((utf8 src).length+1) ⟨utf8 src,0⟩ with
    | error => simp [inner] at read
    | ok =>
      obtain ⟨lexemes,scans,rfl⟩ := follow.mp inner
      simp only [inner,Except.ok.injEq] at read
      exact ⟨lexemes,scans,read.symm⟩
  · rintro ⟨lexemes,scans,rfl⟩
    rw [follow.mpr ⟨lexemes,scans,rfl⟩]

end

end

end NoeDB.Scanner
