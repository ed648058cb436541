import NoeDB.ScannerRefinement

/-! The spans of the tokens tile the source: between them there are only blanks and whole
comments. -/
namespace NoeDB.Scanner
open ByteString Text Lexer List Nat Option Lexeme

def LineComment (bytes : Bytes) (a b : Nat) : Prop :=
  bytes[a]? = some 45 ∧ bytes[a+1]? = some 45 ∧ a+2 ≤ b ∧
    (∀ j,a+2 ≤ j → j < b → bytes[j]? ≠ some 10) ∧ (b = bytes.length ∨ bytes[b]? = some 10)

def BlockComment (bytes : Bytes) (a b : Nat) : Prop :=
  bytes[a]? = some 47 ∧ bytes[a+1]? = some 42 ∧ a+4 ≤ b ∧ bytes[b-2]? = some 42 ∧ bytes[b-1]? = some 47 ∧
    ∀ j,a+2 ≤ j → j+2 < b → ¬(bytes[j]? = some 42 ∧ bytes[j+1]? = some 47)

def Trivial (bytes : Bytes) (lo hi i : Nat) : Prop :=
  bytes[i]?.any isWhitespaceByte = true ∨
    ∃ a b,lo ≤ a ∧ a ≤ i ∧ i < b ∧ b ≤ hi ∧ (LineComment bytes a b ∨ BlockComment bytes a b)

theorem Trivial.wider (blank : Trivial bytes lo hi i) (lower : lo' ≤ lo)
    (upper : hi ≤ hi') : Trivial bytes lo' hi' i := by
  rcases blank with space | ⟨a,b,_,starts,ends,_,comment⟩
  · exact .inl space
  · exact .inr ⟨a,b,by omega,starts,ends,by omega,comment⟩

theorem blockEndCloses (closed : blockEnd bytes = some n) :
    2 ≤ n ∧ n ≤ bytes.length ∧ bytes[n-2]? = some 42 ∧ bytes[n-1]? = some 47 ∧
      ∀ j,j+2 < n → ¬(bytes[j]? = some 42 ∧ bytes[j+1]? = some 47) := by
  induction bytes generalizing n with
  | nil => cases closed
  | cons _ rest ih =>
    simp only [blockEnd] at closed
    split at closed
    · rename_i ends
      cases some.inj closed
      obtain ⟨star,slash⟩ := ends
      cases rest with
      | nil => cases slash
      | cons =>
        cases some.inj slash
        refine ⟨le_refl 2,by simp,by simp [star],by simp,?_⟩
        omega
    · rename_i goesOn
      obtain ⟨m,inner,rfl⟩ := map_eq_some_iff.mp closed
      obtain ⟨_,_,star,slash,before⟩ := ih inner
      have shift : m+1-2 = (m-2)+1 ∧ m+1-1 = (m-1)+1 := by omega
      refine ⟨by omega,by simp only [length_cons]; omega,?_,?_,?_⟩
      · rw [shift.1,List.getElem?_cons_succ,star]
      · rw [shift.2,List.getElem?_cons_succ,slash]
      intro j _
      cases j with
      | zero =>
        rw [List.getElem?_cons_zero,List.getElem?_cons_succ,← List.head?_eq_getElem?]
        exact fun both => goesOn ⟨some.inj both.1,both.2⟩
      | succ j =>
        exact before j (by omega)

section

variable {before : Bytes} {chars : List Char}

theorem behind (before rest : Bytes) (i) : (before ++ rest)[before.length+i]? = rest[i]? := by
  rw [List.getElem?_append_right (Nat.le_add_right _ _),Nat.add_sub_cancel_left]

theorem lineComment {rest} (unbroken : ∀ c ∈ body,c ≠ '\n') (ends : rest = [] ∨ rest.head? = some '\n') :
    LineComment (before ++ encode ('-' :: '-' :: body ++ rest)) before.length (before.length+(2+(encode body).length)) := by
  have whole : encode ('-' :: '-' :: body ++ rest) = 45 :: 45 :: (encode body ++ encode rest) := by
    rw [cons_append,cons_append,encodeCons,encodeCons,encodeAppend]
    rfl
  rw [whole]
  refine ⟨?_,?_,by omega,?_,?_⟩
  · rw [← add_zero before.length,behind]
    rfl
  · rw [behind]
    rfl
  · intro j _ _
    obtain ⟨k,rfl⟩ : ∃ k,j = before.length+(k+2) := ⟨j-before.length-2,by omega⟩
    have inside : k < (encode body).length := by omega
    rw [behind,List.getElem?_cons_succ,List.getElem?_cons_succ,List.getElem?_append_left inside,
      List.getElem?_eq_getElem inside]
    intro same
    obtain ⟨c,found,byte⟩ := mem_flatMap.mp (getElem_mem inside)
    have agreed := lineAgrees c _ byte
    rw [decide_eq_decide] at agreed
    exact agreed.mpr (unbroken c found) (some.inj same)
  · rcases ends with rfl | line
    · left
      simp only [encodeNil,append_nil,length_append,length_cons]
      omega
    · right
      rw [behind,add_comm 2,List.getElem?_cons_succ,List.getElem?_cons_succ,
        List.getElem?_append_right (Nat.le_refl _),Nat.sub_self,← List.head?_eq_getElem?]
      exact (encodedHead (c := '\n') (by decide) rest).mpr line

theorem blockComment {rest} (closed : blockEnd (encode (body ++ rest)) = some (encode body).length) :
    BlockComment (before ++ encode ('/' :: '*' :: body ++ rest)) before.length (before.length+(2+(encode body).length)) := by
  have whole : encode ('/' :: '*' :: body ++ rest) = 47 :: 42 :: encode (body ++ rest) := rfl
  obtain ⟨_,_,star,slash,earlier⟩ := blockEndCloses closed
  rw [whole]
  have shifted (k : Nat) : (before ++ 47 :: 42 :: encode (body ++ rest))[before.length+(k+2)]? = (encode (body ++ rest))[k]? := by
    rw [behind,List.getElem?_cons_succ,List.getElem?_cons_succ]
  refine ⟨?_,?_,by omega,?_,?_,?_⟩
  · rw [← add_zero before.length,behind]
    rfl
  · rw [behind]
    rfl
  · rw [show before.length+(2+(encode body).length)-2 = before.length+((encode body).length-2+2) by omega,shifted,star]
  · rw [show before.length+(2+(encode body).length)-1 = before.length+((encode body).length-1+2) by omega,shifted,slash]
  · intro j _ _
    obtain ⟨k,rfl⟩ : ∃ k,j = before.length+(k+2) := ⟨j-before.length-2,by omega⟩
    rw [shifted,show before.length+(k+2)+1 = before.length+((k+1)+2) by omega,shifted]
    exact earlier k (by omega)

end

def Covered (gap rest : List Char) : Prop :=
  ∀ (before : Bytes) (i : Nat),before.length ≤ i → i < before.length+(encode gap).length →
    Trivial (before ++ encode (gap ++ rest)) before.length (before.length+(encode gap).length) i

theorem coveredSpaces {rest} (spaces : ∀ c ∈ gap,isSpace c = true) : Covered gap rest := by
  intro before i _ _
  obtain ⟨k,rfl⟩ : ∃ k,i = before.length+k := ⟨i-before.length,by omega⟩
  have inside : k < (encode gap).length := by omega
  left
  rw [behind,encodeAppend,List.getElem?_append_left inside,List.getElem?_eq_getElem inside,any_some]
  obtain ⟨c,found,byte⟩ := mem_flatMap.mp (getElem_mem inside)
  rw [spaceAgrees c _ byte]
  exact spaces c found

theorem coveredAppend {rest} (first : Covered gap (more ++ rest)) (second : Covered more rest) :
    Covered (gap ++ more) rest := by
  intro before i lower _
  have size : (encode (gap ++ more)).length = (encode gap).length+(encode more).length := by
    rw [encodeAppend,length_append]
  rw [append_assoc]
  by_cases early : i < before.length+(encode gap).length
  · exact (first before i lower early).wider (le_refl _) (by omega)
  · have later := second (before ++ encode gap) i (by rw [length_append]; omega) (by rw [length_append]; omega)
    rw [append_assoc,← encodeAppend,length_append] at later
    exact later.wider (by omega) (by omega)

theorem coveredLine {rest} (unbroken : ∀ c ∈ body,c ≠ '\n') (ends : rest = [] ∨ rest.head? = some '\n') :
    Covered ('-' :: '-' :: body) rest := by
  intro before i lower upper
  have length : (encode ('-' :: '-' :: body)).length = 2+(encode body).length := by
    simp only [encodeCons,length_append]
    rw [← add_assoc]
    rfl
  rw [length] at upper ⊢
  exact .inr ⟨before.length,before.length+(2+(encode body).length),le_refl _,lower,upper,le_refl _,
    .inl (lineComment unbroken ends)⟩

theorem coveredBlock {rest} (closed : blockEnd (encode (body ++ rest)) = some (encode body).length) :
    Covered ('/' :: '*' :: body) rest := by
  intro before i lower upper
  have length : (encode ('/' :: '*' :: body)).length = 2+(encode body).length := by
    simp only [encodeCons,length_append]
    rw [← add_assoc]
    rfl
  rw [length] at upper ⊢
  exact .inr ⟨before.length,before.length+(2+(encode body).length),le_refl _,lower,upper,le_refl _,
    .inr (blockComment closed)⟩

theorem spacesFirst (chars : List Char) : ∀ c ∈ chars.takeWhile isSpace,isSpace c = true :=
  all_eq_true.mp all_takeWhile

theorem skipCovered {start} (skipped : skip chars = some start) : ∃ gap,chars = gap ++ start ∧ Covered gap start := by
  fun_induction skip chars with
  | case1 chars line ih =>
    obtain ⟨gap,more,covered⟩ := ih skipped
    obtain ⟨rest,spaced⟩ := twoTaken line
    rw [spaced,drop_succ_cons,drop_succ_cons,drop_zero] at more
    have whole : chars = chars.takeWhile isSpace ++ ('-' :: '-' :: rest.takeWhile (· ≠ '\n') ++ (gap ++ start)) := by
      rw [← more]
      conv_lhs => rw [← takeWhile_append_dropWhile (p := isSpace) (l := chars),spaced]
      rw [cons_append,cons_append,takeWhile_append_dropWhile]
    have unbroken : ∀ c ∈ rest.takeWhile (· ≠ '\n'),c ≠ '\n' := by
      intro c mem
      exact of_decide_eq_true (all_eq_true.mp all_takeWhile c mem)
    have ends : gap ++ start = [] ∨ (gap ++ start).head? = some '\n' := by
      rw [← more]
      have stop := List.head?_dropWhile_not (· ≠ '\n') rest
      cases behind : rest.dropWhile (· ≠ '\n') with
      | nil => exact .inl rfl
      | cons =>
        rw [behind] at stop
        exact .inr (by simpa using stop)
    refine ⟨chars.takeWhile isSpace ++ ('-' :: '-' :: rest.takeWhile (· ≠ '\n') ++ gap),?_,?_⟩
    · rw [append_assoc,append_assoc]
      exact whole
    · exact coveredAppend (coveredSpaces (spacesFirst chars)) (coveredAppend (coveredLine unbroken ends) covered)
  | case2 chars _ block _ closed ih =>
    obtain ⟨gap,rfl,covered⟩ := ih skipped
    obtain ⟨_,spaced⟩ := twoTaken block
    have encoded := blockEndEncoded ((chars.dropWhile isSpace).drop 2)
    simp only [closed] at encoded
    rw [spaced,drop_succ_cons,drop_succ_cons,drop_zero] at encoded
    obtain ⟨comment,rfl,ended⟩ := encoded
    refine ⟨chars.takeWhile isSpace ++ ('/' :: '*' :: comment ++ gap),?_,?_⟩
    · conv_lhs => rw [← takeWhile_append_dropWhile (p := isSpace) (l := chars),spaced]
      simp
    · exact coveredAppend (coveredSpaces (spacesFirst chars)) (coveredAppend (coveredBlock ended) covered)
  | case3 => cases skipped
  | case4 chars =>
    cases some.inj skipped
    exact ⟨chars.takeWhile isSpace,takeWhile_append_dropWhile.symm,coveredSpaces (spacesFirst chars)⟩

def Lexeme.first (total : Nat) (l : Lexeme) : Nat := total-(encode l.start).length
def Lexeme.last (total : Nat) (l : Lexeme) : Nat := total-(encode l.rest).length

structure Tiled (src : List Char) (from' : Nat) (lexemes : List Lexeme) : Prop where
  bounded : ∀ l ∈ lexemes,from' ≤ l.first (encode src).length ∧
    l.first (encode src).length < l.last (encode src).length ∧ l.last (encode src).length ≤ (encode src).length
  suffixes : ∀ l ∈ lexemes,l.start <:+ src ∧ l.rest <:+ src
  ordered : lexemes.Pairwise fun l m => l.last (encode src).length ≤ m.first (encode src).length
  between : ∀ i,from' ≤ i → i < (encode src).length →
    (∀ l ∈ lexemes,¬(l.first (encode src).length ≤ i ∧ i < l.last (encode src).length)) →
    ∃ lo hi,from' ≤ lo ∧ Trivial (encode src) lo hi i ∧
      ∀ l ∈ lexemes,l.last (encode src).length ≤ lo ∨ hi ≤ l.first (encode src).length

def Boundary (src : String) (i : Nat) : Prop :=
  ∃ before rest,src.toList = before ++ rest ∧ (encode before).length = i

theorem suffixBoundary {rest} (suffix : rest <:+ src.toList) :
    Boundary src ((utf8 src).length-(encode rest).length) := by
  obtain ⟨before,whole⟩ := suffix
  refine ⟨before,rest,whole.symm,?_⟩
  have size : (utf8 src).length = (encode before).length+(encode rest).length := by
    rw [← length_append,← encodeAppend,whole]
    rfl
  omega

section

variable [Unicode]

theorem scansTiled (scans : Scans chars lexemes) (before) :
    Tiled (before ++ chars) (encode before).length lexemes := by
  induction scans generalizing before with
  | @done chars ended =>
    obtain ⟨gap,whole,covered⟩ := skipCovered ended
    rw [append_nil] at whole
    subst whole
    refine ⟨by simp,by simp,.nil,?_⟩
    intro i low high _
    rw [encodeAppend,length_append] at high
    have blank := covered (encode before) i low high
    rw [append_nil] at blank
    rw [encodeAppend]
    exact ⟨_,_,le_refl _,blank,by simp⟩
  | @token chars start rest kind more skipped found next ih =>
    obtain ⟨gap,rfl,covered⟩ := skipCovered skipped
    obtain ⟨text,filled,rfl⟩ := scanTokenReads found
    have tiled := ih (before ++ gap ++ text)
    have same : before ++ gap ++ text ++ rest = before ++ (gap ++ (text ++ rest)) := by simp
    rw [same] at tiled
    have positive : 0 < (encode text).length := lt_of_lt_of_le (length_pos_iff.mpr filled) (sizeAtLeast text)
    have size : (encode (before ++ (gap ++ (text ++ rest)))).length =
        (encode before).length+(encode gap).length+(encode text).length+(encode rest).length := by
      simp only [encodeAppend,length_append]
      omega
    have reached : (encode (before ++ gap ++ text)).length = (encode before).length+(encode gap).length+(encode text).length := by
      simp only [encodeAppend,length_append]
    have first : first (encode (before ++ (gap ++ (text ++ rest)))).length ⟨text ++ rest,kind,rest⟩ =
        (encode before).length+(encode gap).length := by
      unfold first
      rw [size,encodeAppend,length_append]
      omega
    have last : last (encode (before ++ (gap ++ (text ++ rest)))).length ⟨text ++ rest,kind,rest⟩ =
        (encode before).length+(encode gap).length+(encode text).length := by
      rw [size]
      exact Nat.add_sub_cancel ..
    have later : ∀ l ∈ more,(encode before).length+(encode gap).length+(encode text).length ≤
        l.first (encode (before ++ (gap ++ (text ++ rest)))).length := by
      intro l mem
      rw [← reached]
      exact (tiled.bounded l mem).1
    refine ⟨?_,?_,?_,?_⟩
    · intro l mem
      rcases mem_cons.mp mem with rfl | mem
      · rw [first,last,size]
        omega
      · have bounds := tiled.bounded l mem
        exact ⟨by omega,bounds.2⟩
    · intro l mem
      rcases mem_cons.mp mem with rfl | mem
      · exact ⟨⟨before ++ gap,by simp⟩,⟨before ++ (gap ++ text),by simp⟩⟩
      · exact tiled.suffixes l mem
    · refine pairwise_cons.mpr ⟨?_,tiled.ordered⟩
      intro l mem
      rw [last]
      exact later l mem
    · intro i low high outside
      have own := outside _ mem_cons_self
      by_cases early : i < (encode before).length+(encode gap).length
      · have blank := covered (encode before) i low early
        rw [← encodeAppend] at blank
        refine ⟨_,_,le_refl _,blank,?_⟩
        intro l mem
        rcases mem_cons.mp mem with rfl | mem
        · rw [first]
          exact .inr (le_refl _)
        · have := later l mem
          exact .inr (by omega)
      · obtain ⟨lo,hi,above,blank,apart⟩ := tiled.between i (by omega) high fun l mem => outside l (mem_cons_of_mem _ mem)
        rw [reached] at above
        refine ⟨lo,hi,by omega,blank,?_⟩
        intro l mem
        rcases mem_cons.mp mem with rfl | mem
        · rw [last]
          exact .inl above
        · exact apart l mem

theorem spansTile {src : String} {tokens : List SpannedToken} (short : (utf8 src).length < 2^32)
    (read : tokenize src = .ok tokens) : ∃ inner,tokens = inner ++ [⟨.eof,⟨(utf8 src).length,(utf8 src).length⟩⟩] ∧
      (∀ t ∈ inner,t.span.start < t.span.stop ∧ t.span.stop ≤ (utf8 src).length ∧
        Boundary src t.span.start ∧ Boundary src t.span.stop) ∧ (inner.Pairwise fun t u => t.span.stop ≤ u.span.start) ∧
      ∀ i < (utf8 src).length,(∀ t ∈ inner,¬(t.span.start ≤ i ∧ i < t.span.stop)) →
        ∃ lo hi,Trivial (utf8 src) lo hi i ∧ ∀ t ∈ inner,t.span.stop ≤ lo ∨ hi ≤ t.span.start := by
  obtain ⟨lexemes,scans,rfl⟩ := tokenizeFollows.mp read
  have tiled : Tiled src.toList 0 lexemes := scansTiled scans []
  have first (l : Lexeme) : (l.spanned (utf8 src).length).span.start = l.first (utf8 src).length :=
    mod_eq_of_lt (by omega)
  have last (l : Lexeme) : (l.spanned (utf8 src).length).span.stop = l.last (utf8 src).length :=
    mod_eq_of_lt (by omega)
  refine ⟨lexemes.map (spanned (utf8 src).length),?_,?_,?_,?_⟩
  · rw [mod_eq_of_lt short]
  · intro t mem
    obtain ⟨l,found,rfl⟩ := mem_map.mp mem
    rw [first,last]
    have bounds := tiled.bounded l found
    have suffixes := tiled.suffixes l found
    exact ⟨bounds.2.1,bounds.2.2,suffixBoundary suffixes.1,suffixBoundary suffixes.2⟩
  · rw [pairwise_map]
    refine tiled.ordered.imp ?_
    intro l m before
    rw [last,first]
    exact before
  · intro i inside outside
    obtain ⟨lo,hi,_,blank,apart⟩ := tiled.between i (zero_le i) inside fun l mem both => by
      have := outside _ (mem_map_of_mem mem)
      rw [first,last] at this
      exact this both
    refine ⟨lo,hi,blank,?_⟩
    intro t mem
    obtain ⟨l,found,rfl⟩ := mem_map.mp mem
    rw [first,last]
    exact apart l found

end

/- No character outside of ASCII is a letter or a number. -/
abbrev plainLetters : Unicode := ⟨fun _ => false,fun _ => false⟩

theorem commentSpans :
    (utf8 "a--b").length < 2^32 ∧ @tokenize plainLetters "a--b" = .ok [⟨.ident,⟨0,1⟩⟩,⟨.eof,⟨4,4⟩⟩] ∧
      ∃ inner,[⟨.ident,⟨0,1⟩⟩,⟨.eof,⟨4,4⟩⟩] = inner ++ [(⟨.eof,⟨(utf8 "a--b").length,(utf8 "a--b").length⟩⟩ : SpannedToken)] := by
  have short : (utf8 "a--b").length < 2^32 := by decide
  have read : @tokenize plainLetters "a--b" = .ok [⟨.ident,⟨0,1⟩⟩,⟨.eof,⟨4,4⟩⟩] := by decide +kernel
  obtain ⟨inner,whole,_⟩ := @spansTile plainLetters "a--b" _ short read
  exact ⟨short,read,inner,whole⟩

end NoeDB.Scanner
