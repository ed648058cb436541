import NoeDB.Lexer

/-! Numbers, operators and parameters are words of ASCII: what is read at a position does
not depend on what stands behind the next line break or the next character outside ASCII. -/
namespace NoeDB.Lexer
open ByteString Text Decimals List Cursor Nat

def breaks (b : UInt8) : Bool := b == 10 || 128 ≤ b

def Stops (more : Bytes) : Prop := ∀ b ∈ more.head?,breaks b = true

theorem stopsNil : Stops [] := by
  intro b mem
  cases mem

theorem stopsCons (broken : breaks b = true) : Stops (b :: more) := by
  intro c mem
  cases Option.some.inj mem
  exact broken

theorem digitUnbroken (digit : isDigitByte b = true) : breaks b = false := by
  simp only [isDigitByte,decide_eq_true_eq,UInt8.le_iff_toNat_le] at digit
  simp only [breaks,Bool.or_eq_false_iff,beq_eq_false_iff_ne,ne_eq,decide_eq_false_iff_not,UInt8.le_iff_toNat_le]
  refine ⟨?_,?_⟩
  · rintro rfl
    simp at digit
  · have := digit.2
    simp only [UInt8.reduceToNat] at this ⊢
    omega

section

variable {word more : Bytes} {pos : Nat}

theorem peekWord (stops : Stops more) (plain : breaks b = false) :
    peekByte ⟨word ++ more,pos⟩ = some b ↔ word.head? = some b := by
  cases word with
  | cons => rfl
  | nil =>
    refine ⟨?_,fun found => by cases found⟩
    intro found
    exact absurd (stops b found) (by rw [plain]; decide)

theorem stopsUndigit (stops : Stops (first :: more)) : isDigitByte first = false := by
  by_contra digit
  have broken := stops first rfl
  rw [digitUnbroken (by simpa using digit)] at broken
  cases broken

theorem digitAtStart (stops : Stops more) : atDigit ⟨word ++ more,pos⟩ 0 = word.head?.any isDigitByte := by
  unfold atDigit peekByteAt
  cases word with
  | cons => rfl
  | nil =>
    cases more with
    | nil => rfl
    | cons => exact stopsUndigit stops

theorem digitBehind (stops : Stops more) : atDigit ⟨(first :: word) ++ more,pos⟩ 1 = word.head?.any isDigitByte := by
  rw [← @digitAtStart word more 0 stops]
  rfl

theorem skipDigits (stops : Stops more) : skipWhile ⟨word ++ more,pos⟩ isDigitByte =
      ⟨word.dropWhile isDigitByte ++ more,pos+(word.takeWhile isDigitByte).length⟩ := by
  have taken : (word ++ more).takeWhile isDigitByte = word.takeWhile isDigitByte := by
    induction word with
    | nil =>
      cases more with
      | nil => rfl
      | cons => simp [stopsUndigit stops]
    | cons _ _ ih =>
      simp only [cons_append,takeWhile_cons]
      rw [ih]
  have short : (word.takeWhile isDigitByte).length ≤ word.length := (takeWhile_sublist _).length_le
  unfold skipWhile advance
  rw [taken,drop_append_of_le_length short]
  rw [dropTaken]

end

def within (word more : Bytes) (pos k : Nat) : Cursor := ⟨word.drop k ++ more,pos+k⟩

section

variable {word more : Bytes} {pos k : Nat}

theorem withinStart : (⟨word ++ more,pos⟩ : Cursor) = within word more pos 0 := rfl

theorem advanceWithin (short : k+n ≤ word.length) :
    (within word more pos k).advance n = within word more pos (k+n) := by
  unfold within advance
  rw [drop_append_of_le_length (by rw [length_drop]; omega),drop_drop]
  exact congrArg _ (add_assoc pos k n)

theorem headWithin (found : (word.drop k).head? = some b) : k+1 ≤ word.length := by
  rw [List.head?_drop] at found
  have := (List.getElem?_eq_some_iff.mp found).1
  omega

def digitsEnd (word : Bytes) (k : Nat) : Nat := k+((word.drop k).takeWhile isDigitByte).length

theorem digitsEndShort (short : k ≤ word.length) : digitsEnd word k ≤ word.length := by
  have fewer : ((word.drop k).takeWhile isDigitByte).length ≤ (word.drop k).length := (takeWhile_sublist _).length_le
  rw [length_drop] at fewer
  unfold digitsEnd
  omega

theorem digitsEndAfter (digit : (word.drop k).head?.any isDigitByte = true) : k < digitsEnd word k := by
  unfold digitsEnd
  cases rest : word.drop k with
  | nil => simp [rest] at digit
  | cons =>
    simp only [rest,List.head?_cons,Option.any_some] at digit
    simp [digit]

theorem skipWithin (stops : Stops more) :
    (within word more pos k).skipWhile isDigitByte = within word more pos (digitsEnd word k) := by
  unfold within digitsEnd
  rw [skipDigits stops,← dropTaken,drop_drop]
  congr 1
  omega

theorem peekWithin (stops : Stops more) (plain : breaks b = false) :
    (within word more pos k).peekByte = some b ↔ (word.drop k).head? = some b :=
  peekWord stops plain

theorem digitWithin (stops : Stops more) (found : (word.drop k).head? = some first) :
    (within word more pos k).atDigit 1 = (word.drop (k+1)).head?.any isDigitByte := by
  unfold within
  cases rest : word.drop k with
  | nil => simp [rest] at found
  | cons =>
    rw [digitBehind stops,← drop_drop,rest]
    rfl

end

def Token.isWord : Token → Bool
  | .integer _ | .float _ | .op _ | .punct _ | .parameter _ => true
  | _ => false

inductive Local (lex : Cursor → Lexed (SpannedToken × Cursor)) (word : Bytes) : Option (Token × Nat) → Prop where
  | reads {kind : Token} {n : Nat} (positive : 0 < n) (short : n ≤ word.length) (inner : kind.isWord = true)
      (same : ∀ more pos,Stops more → lex ⟨word ++ more,pos⟩ =
        .ok (⟨kind,⟨pos%2^32,(pos+n)%2^32⟩⟩,within word more pos n)) :
      Local lex word (some (kind,n))
  | refuses (same : ∀ more pos,Stops more → ∃ kind span,lex ⟨word ++ more,pos⟩ = .error (.error kind span)) :
      Local lex word none

section

variable {word : Bytes}

theorem failRefuses {α : Type} (kind start stop) :
    ∃ kind' span,(fail kind start stop : Lexed α) = .error (.error kind' span) := ⟨kind,mkSpan start stop,rfl⟩

theorem Local.ofSame {lex} (read : Local other word o)
    (same : ∀ more pos,Stops more → lex ⟨word ++ more,pos⟩ = other ⟨word ++ more,pos⟩) : Local lex word o := by
  cases read with
  | reads positive short inner reads =>
    refine .reads positive short inner ?_
    intro more pos stops
    rw [same more pos stops,reads more pos stops]
  | refuses refuses =>
    refine .refuses ?_
    intro more pos stops
    rw [same more pos stops]
    exact refuses more pos stops

theorem advanceStart (short : n ≤ word.length) (more pos) :
    advance ⟨word ++ more,pos⟩ n = within word more pos n := by
  rw [withinStart,advanceWithin (by omega),zero_add]

theorem finishLocal (isFloat) (positive : 0 < n) (short : n ≤ word.length) :
    ∃ o,Local (fun c => finishNumber isFloat c (c.advance n)) word o := by
  have taken (more : Bytes) : (word ++ more).take n = word.take n := take_append_of_le_length short
  have stop := advanceStart short
  have length (pos : Nat) : pos+n-pos = n := by omega
  cases isFloat with
  | true =>
    cases parsed : parse double (String.ofList ((word.take n).map fun b => Char.ofNat b.toNat)) with
    | none =>
      refine ⟨none,.refuses ?_⟩
      intro more pos stops
      simp only [finishNumber,literal,stop,within,length,taken,parsed,if_true]
      exact failRefuses ..
    | some value =>
      refine ⟨some (.float value,n),.reads positive short rfl ?_⟩
      intro more pos stops
      simp only [finishNumber,literal,stop,within,length,taken,parsed,if_true]
      rfl
  | false =>
    cases parsed : parseAsciiInt (word.take n) with
    | none =>
      refine ⟨none,.refuses ?_⟩
      intro more pos stops
      simp only [finishNumber,stop,within,length,taken,parsed]
      exact failRefuses ..
    | some value =>
      refine ⟨some (.integer (Int64.ofNat value),n),.reads positive short rfl ?_⟩
      intro _ _ _
      simp only [finishNumber,stop,within,length,taken,parsed]
      rfl

theorem powerLocal (short : k ≤ word.length) :
    ∃ o,Local (fun c => if ¬(c.advance k).atDigit 0 then fail (.invalidFloat (c.literal (c.advance k))) c (c.advance k)
      else finishNumber true c ((c.advance k).skipWhile isDigitByte)) word o := by
  have stop := advanceStart short
  have digit (more : Bytes) (pos : Nat) (stops : Stops more) :
      (within word more pos k).atDigit 0 = (word.drop k).head?.any isDigitByte := digitAtStart stops
  cases digits : (word.drop k).head?.any isDigitByte with
  | false =>
    refine ⟨none,.refuses ?_⟩
    intro more pos stops
    simp only [stop,digit more pos stops,digits]
    exact failRefuses ..
  | true =>
    have after := digitsEndAfter digits
    obtain ⟨o,read⟩ := finishLocal true (zero_lt_of_lt after) (digitsEndShort short)
    refine ⟨o,read.ofSame ?_⟩
    intro more pos stops
    simp only [stop,digit more pos stops,digits,not_true_eq_false,if_false]
    rw [skipWithin stops,advanceStart (digitsEndShort short)]

theorem exponentLocal (isFloat : Bool) (positive : 0 < k) (short : k ≤ word.length) :
    ∃ o,Local (fun c => lexExponent isFloat c (c.advance k)) word o := by
  have plain : breaks 101 = false ∧ breaks 69 = false ∧ breaks 43 = false ∧ breaks 45 = false := by decide
  by_cases marked : (word.drop k).head? = some 101 ∨ (word.drop k).head? = some 69
  · have room : k+1 ≤ word.length := by rcases marked with found | found <;> exact headWithin found
    by_cases signed : (word.drop (k+1)).head? = some 43 ∨ (word.drop (k+1)).head? = some 45
    · have wide : k+1+1 ≤ word.length := by rcases signed with found | found <;> exact headWithin found
      obtain ⟨o,read⟩ := powerLocal wide
      refine ⟨o,read.ofSame ?_⟩
      intro more pos stops
      simp only [lexExponent,advanceStart short,advanceStart wide,advanceWithin room,advanceWithin wide,
        peekWithin stops,plain,if_pos marked,if_pos signed]
    · obtain ⟨o,read⟩ := powerLocal room
      refine ⟨o,read.ofSame ?_⟩
      intro more pos stops
      simp only [lexExponent,advanceStart short,advanceStart room,advanceWithin room,
        peekWithin stops,plain,if_pos marked,if_neg signed]
  · obtain ⟨o,read⟩ := finishLocal isFloat positive short
    refine ⟨o,read.ofSame ?_⟩
    intro _ _ stops
    simp only [lexExponent,advanceStart short,peekWithin stops,plain,if_neg marked]

theorem fractionLocal (leads : Bool) (positive : 0 < k) (short : k ≤ word.length) : ∃ o,Local (fun c =>
      let whole := c.advance k
      let divides : Bool := whole.peekByte = some 46 ∧ ¬leads ∧ whole.atDigit 1
      lexExponent (leads || divides) c (if divides then (whole.advance 1).skipWhile isDigitByte else whole)) word o := by
  by_cases divided : (word.drop k).head? = some 46 ∧ ¬leads ∧ (word.drop (k+1)).head?.any isDigitByte
  · have room : k+1 ≤ word.length := headWithin divided.1
    obtain ⟨o,read⟩ := exponentLocal (leads || true) (zero_lt_of_lt (digitsEndAfter divided.2.2)) (digitsEndShort room)
    refine ⟨o,read.ofSame ?_⟩
    intro more pos stops
    have divides : (within word more pos k).peekByte = some 46 ∧ ¬leads ∧ (within word more pos k).atDigit 1 := by
      rw [peekWithin stops (by decide),digitWithin stops divided.1]
      exact divided
    simp only [advanceStart short,advanceStart (digitsEndShort room),decide_eq_true divides,if_true,
      advanceWithin room,skipWithin stops]
  · obtain ⟨o,read⟩ := exponentLocal (leads || false) positive short
    refine ⟨o,read.ofSame ?_⟩
    intro more pos stops
    have undivided : ¬((within word more pos k).peekByte = some 46 ∧ ¬leads ∧ (within word more pos k).atDigit 1) := by
      rw [peekWithin stops (by decide)]
      rintro ⟨point,unled,digit⟩
      rw [digitWithin stops point] at digit
      exact divided ⟨point,unled,digit⟩
    simp only [advanceStart short,decide_eq_false undivided,Bool.false_eq_true,if_false]

theorem numberLocal (starts : word.head? = some 46 ∨ word.head?.any isDigitByte = true) : ∃ o,Local lexNumber word o := by
  by_cases leads : word.head? = some 46
  · cases word with
    | nil => simp at leads
    | cons first rest =>
      have led {more pos} (stops : Stops more) : peekByte ⟨first :: rest ++ more,pos⟩ = some 46 :=
        (peekWord stops (by decide)).mpr leads
      by_cases digit : rest.head?.any isDigitByte = true
      · have room : 1 ≤ (first :: rest).length := by simp
        have after : 1 < digitsEnd (first :: rest) 1 := digitsEndAfter digit
        obtain ⟨o,read⟩ := fractionLocal true (zero_lt_of_lt after) (digitsEndShort room)
        refine ⟨o,read.ofSame ?_⟩
        intro more pos stops
        simp only [lexNumber,decide_eq_true (led stops),digitBehind stops,digit,not_true_eq_false,and_false,if_false,if_true,
          advanceStart room,advanceStart (digitsEndShort room),skipWithin stops]
      · refine ⟨none,.refuses ?_⟩
        intro more pos stops
        simp only [lexNumber,decide_eq_true (led stops),digitBehind stops,digit,not_false_eq_true,and_self,if_true,Bool.false_eq_true]
        exact failRefuses ..
  · have digit := starts.resolve_left leads
    have after : 0 < digitsEnd word 0 := digitsEndAfter digit
    obtain ⟨o,read⟩ := fractionLocal false after (digitsEndShort (zero_le _))
    refine ⟨o,read.ofSame ?_⟩
    intro more pos stops
    have unled : ¬peekByte ⟨word ++ more,pos⟩ = some 46 := fun led => leads ((peekWord stops (by decide)).mp led)
    simp only [lexNumber,decide_eq_false unled,Bool.false_eq_true,false_and,if_false,
      advanceStart (digitsEndShort (zero_le _))]
    rw [withinStart,skipWithin stops]

theorem numberFastLocal {rest} (digit : isDigitByte first = true) :
    ∃ o,Local (lexNumberFast first) (first :: rest) o := by
  let goes (b : UInt8) : Bool := isDigitByte b || b == 46 || b == 101 || b == 69
  have behind (more : Bytes) (pos : Nat) (stops : Stops more) :
      (peekByteAt ⟨first :: rest ++ more,pos⟩ 1).any goes = rest.head?.any goes := by
    cases rest with
    | cons => rfl
    | nil =>
      cases more with
      | nil => rfl
      | cons second =>
        have broken := stops second rfl
        simp only [peekByteAt,cons_append,nil_append,List.getElem?_cons_succ,
          List.getElem?_cons_zero,List.head?_nil,Option.any_none,Option.any_some]
        by_contra goesOn
        have holds : goes second = true := by simpa using goesOn
        simp only [goes,Bool.or_eq_true,beq_iff_eq,or_assoc] at holds
        rcases holds with digit | rfl | rfl | rfl
        · rw [digitUnbroken digit] at broken
          cases broken
        all_goals exact absurd broken (by decide)
  cases goesOn : rest.head?.any goes with
  | true =>
    obtain ⟨o,read⟩ := @numberLocal (first :: rest) (.inr digit)
    refine ⟨o,read.ofSame ?_⟩
    intro more pos stops
    have same := (behind more pos stops).trans goesOn
    exact if_pos same
  | false =>
    refine ⟨some (.integer (Int64.ofNat (first.toNat-48)),1),.reads (by decide) (by simp) rfl ?_⟩
    intro more pos stops
    have same := (behind more pos stops).trans goesOn
    exact if_neg (fun holds => by rw [show (_ : Bool) = false from same] at holds; cases holds)

theorem parameterDigitsLocal (word n digits) :
    (∃ m k,k ≤ word.length ∧ ∀ start more,Stops more → parameterDigits start (word ++ more) n digits = .ok (m,digits+k)) ∨
      ∀ start more,Stops more → ∃ kind span,parameterDigits start (word ++ more) n digits = .error (.error kind span) := by
  induction word generalizing n digits with
  | nil =>
    refine .inl ⟨n,0,le_refl _,?_⟩
    intro start more stops
    cases more with
    | nil => rfl
    | cons first =>
      have broken := stops first rfl
      have other : ¬isDigitByte first = true := fun digit => by rw [digitUnbroken digit] at broken; cases broken
      simp [nil_append,parameterDigits,if_neg other,add_zero]
  | cons first _ ih =>
    by_cases digit : isDigitByte first = true
    · by_cases large : 65535 < 10*n+(first.toNat-48)
      · refine .inr ?_
        intro start more stops
        simp only [cons_append,parameterDigits,if_pos digit,if_pos large]
        exact failRefuses ..
      · rcases ih (10*n+(first.toNat-48)) (digits+1) with ⟨m,k,short,same⟩ | refused
        · refine .inl ⟨m,k+1,succ_le_succ short,?_⟩
          intro start more stops
          simp only [cons_append,parameterDigits,if_pos digit,if_neg large,same start more stops]
          rw [add_assoc digits 1 k,add_comm 1 k]
        · refine .inr ?_
          intro start more stops
          simp only [cons_append,parameterDigits,if_pos digit,if_neg large]
          exact refused start more stops
    · refine .inl ⟨n,0,zero_le _,?_⟩
      intro _ _ _
      simp [cons_append,parameterDigits,if_neg digit,add_zero]

def placed (start : Cursor) (lexed : Token × Cursor) : Lexed (SpannedToken × Cursor) :=
  .ok (⟨lexed.1,mkSpan start lexed.2⟩,lexed.2)

theorem parameterLocal (rest) : ∃ o,Local lexOperatorOrPunct (36 :: rest) o := by
  have opened (more : Bytes) (pos : Nat) : lexOperatorOrPunct ⟨36 :: rest ++ more,pos⟩ =
      lexParameter ⟨rest ++ more,pos+1⟩ >>= placed ⟨36 :: rest ++ more,pos⟩ := rfl
  rcases parameterDigitsLocal rest 0 0 with ⟨m,k,short,same⟩ | refused
  · by_cases none : k = 0
    · refine ⟨_,.refuses ?_⟩
      intro more pos stops
      rw [opened]
      simp only [lexParameter,same _ more stops,none,bind,Except.bind]
      exact ⟨_,_,rfl⟩
    · refine ⟨some (.parameter m,k+1),.reads (succ_pos k) (succ_le_succ short) rfl ?_⟩
      intro more pos stops
      rw [opened]
      have some : ¬0+k = 0 := by omega
      simp only [lexParameter,same _ more stops,bind,Except.bind,if_neg some]
      rw [zero_add,advanceStart short]
      simp [placed,within,mkSpan,drop_succ_cons,add_assoc,add_comm 1 k]
  · refine ⟨_,.refuses ?_⟩
    intro more pos stops
    obtain ⟨kind,span,failed⟩ := refused ⟨rest ++ more,pos+1⟩ more stops
    refine ⟨kind,span,?_⟩
    rw [opened]
    simp [lexParameter,failed,bind,Except.bind]

theorem singleLocal {rest} (kind) (inner : kind.isWord = true)
    (same : ∀ more pos,lexOperatorOrPunct ⟨first :: more,pos⟩ =
      .ok (⟨kind,⟨pos%2^32,(pos+1)%2^32⟩⟩,⟨more,pos+1⟩)) : ∃ o,Local lexOperatorOrPunct (first :: rest) o :=
  ⟨some (kind,1),.reads (by decide) (by simp) inner fun more pos _ => same (rest ++ more) pos⟩

theorem chosenLocal {lex} (kind n) (inner : kind.isWord = true)
    (positive : 0 < n) (short : n ≤ word.length) (same : ∀ more pos,Stops more → lex ⟨word ++ more,pos⟩ =
      .ok (⟨kind,mkSpan ⟨word ++ more,pos⟩ (advance ⟨word ++ more,pos⟩ n)⟩,advance ⟨word ++ more,pos⟩ n)) :
    ∃ o,Local lex word o := by
  refine ⟨some (kind,n),.reads positive short inner ?_⟩
  intro more pos stops
  rw [same more pos stops,advanceStart short]
  rfl

theorem secondWord {rest pos} (stops : Stops more) (plain : breaks b = false) (found : rest.head? = some a) :
    peekByteAt ⟨rest ++ more,pos⟩ 1 = some b ↔ rest[1]? = some b := by
  cases rest with
  | nil => simp at found
  | cons first others =>
    have behind : peekByteAt ⟨first :: others ++ more,pos⟩ 1 = peekByte ⟨others ++ more,pos⟩ :=
      List.head?_eq_getElem?.symm
    have second : (first :: others)[1]? = others.head? := List.head?_eq_getElem?.symm
    rw [behind,second]
    exact peekWord stops plain

theorem pairLocal {first b rest other} (kind : Token) (inner : kind.isWord = true) (plain : breaks b = false)
    (otherwise : ∃ o,Local other (first :: rest) o) : ∃ o,Local (fun c =>
      if (c.advance 1).peekByte = some b then placed c (kind,(c.advance 1).advance 1) else other c) (first :: rest) o := by
  have second (more : Bytes) (pos : Nat) : advance ⟨first :: rest ++ more,pos⟩ 1 = ⟨rest ++ more,pos+1⟩ := rfl
  by_cases followed : rest.head? = some b
  · have room : 2 ≤ (first :: rest).length := by cases rest <;> simp at followed ⊢
    refine chosenLocal kind 2 inner (by decide) room ?_
    intro more pos stops
    simp only [second,(peekWord stops plain).mpr followed,if_true]
    rfl
  · obtain ⟨o,read⟩ := otherwise
    refine ⟨o,read.ofSame ?_⟩
    intro _ _ stops
    simp only [second,if_neg (mt (peekWord stops plain).mp followed)]

theorem aloneLocal {rest} (kind) (inner : kind.isWord = true) :
    ∃ o,Local (fun c => placed c (kind,c.advance 1)) (first :: rest) o :=
  chosenLocal kind 1 inner (by decide) (by simp) fun _ _ _ => rfl

theorem notEqualLocal (rest : Bytes) : ∃ o,Local lexOperatorOrPunct (33 :: rest) o := by
  have refused : Local (fun c => fail (.unexpectedChar '!') c (c.advance 1)) (33 :: rest) none :=
    .refuses fun _ _ _ => failRefuses ..
  obtain ⟨o,read⟩ := pairLocal (.op .ne) rfl (show breaks 61 = false by decide) ⟨_,refused⟩
  exact ⟨o,read.ofSame fun _ _ _ => rfl⟩

theorem greaterLocal (rest : Bytes) : ∃ o,Local lexOperatorOrPunct (62 :: rest) o := by
  obtain ⟨o,read⟩ := @pairLocal 62 61 rest _ (.op .ge) rfl (by decide) (aloneLocal (.op .gt) rfl)
  exact ⟨o,read.ofSame fun _ _ _ => rfl⟩

theorem lessLocal (rest : Bytes) : ∃ o,Local lexOperatorOrPunct (60 :: rest) o := by
  have second (more : Bytes) (pos : Nat) : advance ⟨60 :: rest ++ more,pos⟩ 1 = ⟨rest ++ more,pos+1⟩ := rfl
  have opened (c : Cursor) (found : c.peekByte = some 60) : lexOperatorOrPunct c =
      if (c.advance 1).peekByte = some 45 ∧ (c.advance 1).peekByteAt 1 = some 62 then
        placed c (.op .distance,(c.advance 1).advance 2)
      else if (c.advance 1).peekByte = some 61 then placed c (.op .le,(c.advance 1).advance 1)
      else if (c.advance 1).peekByte = some 62 then placed c (.op .ne,(c.advance 1).advance 1)
      else placed c (.op .lt,c.advance 1) := by
    simp only [lexOperatorOrPunct,found]
    split <;> [rfl;split <;> [rfl;split <;> rfl]]
  have distant (more : Bytes) (pos : Nat) (stops : Stops more) :
      (peekByte ⟨rest ++ more,pos+1⟩ = some 45 ∧ peekByteAt ⟨rest ++ more,pos+1⟩ 1 = some 62) ↔
        (rest.head? = some 45 ∧ rest[1]? = some 62) := by
    rw [peekWord stops (by decide)]
    exact and_congr_right fun found => secondWord stops (by decide) found
  by_cases distance : rest.head? = some 45 ∧ rest[1]? = some 62
  · have room : 3 ≤ (60 :: rest : Bytes).length := by
      have := (List.getElem?_eq_some_iff.mp distance.2).1
      simp only [length_cons]
      omega
    refine chosenLocal (.op .distance) 3 rfl (by decide) room ?_
    intro more pos stops
    rw [opened _ rfl,second,if_pos ((distant more pos stops).mpr distance)]
    rfl
  · obtain ⟨o,read⟩ := @pairLocal 60 61 rest _ (.op .le) rfl (by decide)
      (@pairLocal 60 62 rest _ (.op .ne) rfl (by decide) (aloneLocal (.op .lt) rfl))
    refine ⟨o,read.ofSame ?_⟩
    intro more pos stops
    rw [opened _ rfl,second,if_neg (mt (distant more pos stops).mp distance)]

theorem operatorLocal (rest) (starts : isOperatorOrPunctStart first = true) :
    ∃ o,Local lexOperatorOrPunct (first :: rest) o := by
  simp only [isOperatorOrPunctStart,mem_cons,not_mem_nil,or_false,decide_eq_true_eq] at starts
  rcases starts with rfl | rfl | rfl | rfl | rfl | rfl | rfl | rfl | rfl | rfl | rfl | rfl | rfl | rfl | rfl
  · exact singleLocal (.punct .lParen) rfl fun _ _ => rfl
  · exact singleLocal (.punct .rParen) rfl fun _ _ => rfl
  · exact singleLocal (.punct .comma) rfl fun _ _ => rfl
  · exact singleLocal (.punct .semicolon) rfl fun _ _ => rfl
  · exact singleLocal (.punct .star) rfl fun _ _ => rfl
  · exact singleLocal (.punct .dot) rfl fun _ _ => rfl
  · exact singleLocal (.op .eq) rfl fun _ _ => rfl
  · exact notEqualLocal rest
  · exact lessLocal rest
  · exact greaterLocal rest
  · exact singleLocal (.op .plus) rfl fun _ _ => rfl
  · exact singleLocal (.op .minus) rfl fun _ _ => rfl
  · exact singleLocal (.op .div) rfl fun _ _ => rfl
  · exact singleLocal (.op .mod) rfl fun _ _ => rfl
  · exact parameterLocal rest

end

end NoeDB.Lexer
