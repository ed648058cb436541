import NoeDB.QuotedText
import NoeDB.RedactSpans

/-! Two texts that differ only in string literals behind sensitive keywords. Where keywords
lead to no quote but those that open literals, what is left of a literal is the mask and
the part of it from the first quote inside of it on. -/
namespace NoeDB.Redact
open ByteString Text Lexer Scanner List Option

structure Piece where
  gap : List Char
  kind : Token
  text : List Char

def written : List Piece → List Char → List Char
  | [],last => last
  | p :: pieces,last => p.gap ++ (p.text ++ written pieces last)

section

variable [Unicode]

inductive Reads : List Char → List Piece → List Char → Prop where
  | done {chars : List Char} (ended : skip chars = some []) : Reads chars [] chars
  | token {gap text rest last : List Char} {kind : Token} {pieces : List Piece}
      (skipped : skip (gap ++ (text ++ rest)) = some (text ++ rest)) (found : scanToken (text ++ rest) = some (kind,rest))
      (next : Reads rest pieces last) : Reads (gap ++ (text ++ rest)) (⟨gap,kind,text⟩ :: pieces) last

theorem readsScans (scans : Scans chars lexemes) :
    ∃ pieces last,Reads chars pieces last ∧ pieces.map Piece.kind = lexemes.map Lexeme.kind := by
  induction scans with
  | done ended => exact ⟨[],_,.done ended,rfl⟩
  | token skipped found _ ih =>
    obtain ⟨_,rfl⟩ := skipReads skipped
    obtain ⟨_,_,rfl⟩ := scanTokenReads found
    obtain ⟨_,last,reads,kinds⟩ := ih
    exact ⟨_,last,.token skipped found reads,by rw [map_cons,map_cons,kinds]⟩

theorem scansReads (reads : Reads chars pieces last) :
    ∃ lexemes,Scans chars lexemes ∧ lexemes.map Lexeme.kind = pieces.map Piece.kind := by
  induction reads with
  | done ended => exact ⟨[],.done ended,rfl⟩
  | token skipped found _ ih =>
    obtain ⟨_,scans,kinds⟩ := ih
    exact ⟨_,.token skipped found scans,by rw [map_cons,map_cons,kinds]⟩

theorem tokenizeReads : (∃ tokens,tokenize src = .ok tokens ∧ tokens.map SpannedToken.kind = kinds ++ [.eof]) ↔
      ∃ pieces last,Reads src.toList pieces last ∧ pieces.map Piece.kind = kinds := by
  refine ⟨?_,?_⟩
  · rintro ⟨tokens,read,same⟩
    obtain ⟨lexemes,scans,others⟩ := tokenizeScans read
    obtain ⟨pieces,last,reads,again⟩ := readsScans scans
    rw [others] at same
    exact ⟨pieces,last,reads,again.trans (append_cancel_right same)⟩
  · rintro ⟨_,_,reads,rfl⟩
    obtain ⟨_,scans,same⟩ := scansReads reads
    obtain ⟨tokens,read,kinds⟩ := tokenizeKinds scans
    exact ⟨tokens,read,by rw [kinds,same]⟩

theorem stringText (found : scanToken (text ++ rest) = some (.string value,rest)) :
    text = '\'' :: (escape '\'' value.toList ++ ['\'']) ∧ rest.head? ≠ some '\'' := by
  cases start : text ++ rest with
  | nil =>
    rw [start] at found
    cases found
  | cons first others =>
    rw [start] at found
    have word {lex : Cursor → Lexed (SpannedToken × Cursor)} {o : Option (Token × Nat)}
        (read : Local lex (encode ((first :: others).takeWhile plain)) o)
        (found : readWord lex (first :: others) = some (.string value,rest)) : False := by
      have := (wordLength read found).1
      cases this
    simp only [scanToken] at found
    split at found
    · have kind := (Prod.mk.inj (some.inj found)).1
      unfold wordKind at kind
      split at kind <;> cases kind
    split at found
    · obtain ⟨o,read⟩ := digitWord others (by assumption)
      exact (word read found).elim
    split at found
    · rename_i quote
      obtain ⟨result,scanned,same⟩ := map_eq_some_iff.mp found
      obtain ⟨kind,rfl⟩ := Prod.mk.inj same
      obtain ⟨value',read,rfl,behind⟩ := quotedText scanned
      have value : value.toList = value' := by
        rw [← Token.string.inj kind,read]
        simp
      refine ⟨?_,behind⟩
      rw [value]
      refine append_cancel_right (start.trans ?_)
      rw [quote]
      simp
    split at found
    · obtain ⟨_,_,same⟩ := map_eq_some_iff.mp found
      cases (Prod.mk.inj same).1
    split at found
    · rename_i pointed
      obtain ⟨rfl,_⟩ := pointed
      obtain ⟨o,read⟩ := pointWord others
      exact (word read found).elim
    split at found
    · obtain ⟨o,read⟩ := operatorWord others (by assumption)
      exact (word read found).elim
    · cases found

end

theorem encodeSplit (whole : encode chars = lead ++ 39 :: rest) :
    ∃ before after,chars = before ++ '\'' :: after ∧ encode before = lead ∧ encode after = rest := by
  induction chars generalizing lead with
  | nil =>
    have := congrArg List.length whole
    simp at this
  | cons first others ih =>
    by_cases quote : first = '\''
    · subst quote
      cases lead with
      | nil =>
        cases whole
        exact ⟨[],others,rfl,rfl,rfl⟩
      | cons =>
        obtain ⟨rfl,inner⟩ := List.cons.inj whole
        obtain ⟨before,after,rfl,rfl,rfl⟩ := ih inner
        exact ⟨'\'' :: before,after,rfl,rfl,rfl⟩
    · have unquoted : (39 : UInt8) ∉ String.utf8EncodeChar first := by
        intro mem
        by_cases small : first.toNat < 128
        · rw [encodedAscii small,mem_singleton] at mem
          exact quote (asciiInjective small (by decide) mem.symm)
        · exact absurd (encodedHigh (by omega) mem) (by decide)
      rcases append_eq_append_iff.mp whole with ⟨x,rfl,behind⟩ | ⟨x,bytes,behind⟩
      · obtain ⟨before,after,rfl,rfl,rfl⟩ := ih behind
        exact ⟨first :: before,after,rfl,rfl,rfl⟩
      · cases x with
        | nil =>
          obtain ⟨before,after,rfl,empty,rfl⟩ := @ih [] behind.symm
          refine ⟨first :: before,after,rfl,?_,rfl⟩
          rw [encodeCons,empty,bytes,append_nil,append_nil]
        | cons =>
          obtain ⟨rfl,_⟩ := List.cons.inj behind
          rw [bytes] at unquoted
          exact absurd (mem_append_right _ mem_cons_self) unquoted

section

variable {before x y : Bytes}

theorem leadsBehind (before after) : Leads (before ++ 39 :: after) ↔ Leads after := by
  refine ⟨?_,?_⟩
  · rintro ⟨keyword,mem,front,word,gap,whole,lowered,is⟩
    have free : 39 ∉ word ++ gap := by
      intro found
      rcases mem_append.mp found with found | found
      · refine (keywordsPlain mem).unquoted ?_
        rw [← lowered]
        exact mem_map.mpr ⟨39,found,by decide⟩
      · rcases gapBytes is found with blank | equals
        · exact absurd blank (by decide)
        · exact absurd equals (by decide)
    rw [append_assoc] at whole
    rcases append_eq_append_iff.mp whole with ⟨z,rfl,behind⟩ | ⟨z,rfl,behind⟩
    · cases z with
      | nil =>
        rw [nil_append] at behind
        rw [← behind] at free
        exact absurd mem_cons_self free
      | cons _ more =>
        obtain ⟨rfl,rfl⟩ := List.cons.inj behind
        exact ⟨keyword,mem,more,word,gap,by rw [append_assoc]; rfl,lowered,is⟩
    · rw [behind] at free
      exact absurd (mem_append_right _ mem_cons_self) free
  · rintro ⟨keyword,mem,front,word,gap,rfl,lowered,is⟩
    exact ⟨keyword,mem,before ++ 39 :: front,word,gap,by simp,lowered,is⟩

theorem unledAppend (first : Unled before x) (second : Unled (before ++ x) y) : Unled before (x ++ y) := by
  intro lead rest whole
  rcases append_eq_append_iff.mp whole with ⟨z,rfl,behind⟩ | ⟨z,rfl,behind⟩
  · rw [← append_assoc]
    exact second z rest behind
  · cases z with
    | nil =>
      rw [append_nil] at second
      have := second [] rest behind.symm
      rwa [append_nil] at this
    | cons _ more =>
      obtain ⟨rfl,_⟩ := List.cons.inj behind
      exact first lead more rfl

theorem partedPrepend (free : Unled before x) (parted : Parted (before ++ x) parts last) :
    ∃ parts' last',Parted before parts' last' ∧ joined parts' last' = x ++ joined parts last ∧
      masked parts' last' = x ++ masked parts last := by
  cases parted with
  | last rest => exact ⟨[],x ++ last,.last (unledAppend free rest),rfl,rfl⟩
  | @part _ _ p parts rest led closed apart next =>
    refine ⟨⟨x ++ p.plain,p.body⟩ :: parts,last,?_,?_,?_⟩
    · refine .part (unledAppend free rest) ?_ closed ?_ ?_
      · rwa [← append_assoc]
      · rwa [← append_assoc]
      · rwa [← append_assoc]
    · simp [joined]
    · simp [masked]

end

def Aligned (before : List Char) (pieces : List Piece) (last : List Char) : Prop :=
  ∀ lead rest,written pieces last = lead ++ '\'' :: rest → Leads (encode (before ++ lead)) →
    ∃ earlier p later value,pieces = earlier ++ p :: later ∧ p.kind = .string value ∧ lead = written earlier p.gap

section

variable {before last : List Char} {p : Piece} {pieces : List Piece}

theorem alignedPiece (aligned : Aligned before (p :: pieces) last)
    (within : p.gap ++ p.text = lead ++ '\'' :: rest) (led : Leads (encode (before ++ lead))) :
    lead = p.gap ∧ ∃ value,p.kind = .string value := by
  have whole : written (p :: pieces) last = lead ++ '\'' :: (rest ++ written pieces last) := by
    rw [written,← append_assoc,within,append_assoc,cons_append]
  obtain ⟨earlier,q,_,value,split,kind,same⟩ := aligned lead _ whole led
  cases earlier with
  | nil =>
    obtain ⟨rfl,_⟩ := List.cons.inj split
    exact ⟨same,value,kind⟩
  | cons =>
    obtain ⟨rfl,_⟩ := List.cons.inj split
    have long := congrArg List.length within
    have short := congrArg List.length same
    simp only [written,length_append,length_cons] at long short
    omega

theorem alignedNext (aligned : Aligned before (p :: pieces) last) (filled : p.text ≠ []) :
    Aligned (before ++ (p.gap ++ p.text)) pieces last := by
  intro lead rest whole led
  have outer : written (p :: pieces) last = (p.gap ++ p.text ++ lead) ++ '\'' :: rest := by
    rw [written,whole]
    simp
  rw [append_assoc] at led
  obtain ⟨earlier,q,later,value,split,kind,same⟩ := aligned _ rest outer led
  cases earlier with
  | nil =>
    obtain ⟨rfl,_⟩ := List.cons.inj split
    have := congrArg List.length same
    have positive := length_pos_iff.mpr filled
    simp only [written,length_append] at this
    omega
  | cons _ earlier =>
    obtain ⟨rfl,rfl⟩ := List.cons.inj split
    refine ⟨earlier,q,later,value,rfl,kind,?_⟩
    rw [written,← append_assoc] at same
    exact append_cancel_left same

theorem unledPiece {x y z} (aligned : Aligned before (p :: pieces) last) (within : p.gap ++ p.text = x ++ (y ++ z))
    (other : ∀ lead rest,y = lead ++ '\'' :: rest → x ++ lead = p.gap → ∀ value,p.kind = .string value →
      ¬Leads (encode (before ++ p.gap))) : Unled (encode (before ++ x)) (encode y) := by
  intro _ _ whole led
  obtain ⟨front,after,rfl,rfl,_⟩ := encodeSplit whole
  rw [← encodeAppend,append_assoc] at led
  obtain ⟨same,value,kind⟩ := alignedPiece aligned (within.trans (by simp : _ = (x ++ front) ++ '\'' :: (after ++ z))) led
  rw [same] at led
  exact other front after rfl same value kind led

end

def fromQuote (text : List Char) : List Char := text.dropWhile (· ≠ '\'')

def leftover (value : List Char) : List Char :=
  match fromQuote value with
  | [] => []
  | _ :: more => '\'' :: (escape '\'' more ++ ['\''])

def maskChars : List Char := ['\'','*','*','*','\'']

theorem escapePlain (free : ∀ c ∈ text,c ≠ '\'') (more) : escape '\'' (text ++ more) = text ++ escape '\'' more := by
  induction text with
  | nil => rfl
  | cons first _ ih =>
    have other := free first mem_cons_self
    have next := ih fun c mem => free c (mem_cons_of_mem _ mem)
    simp only [escape,cons_append,flatMap_cons,if_neg other] at next ⊢
    rw [next]
    rfl

theorem literalParts (value) :
    ∃ body,escape '\'' value ++ ['\''] = body ++ '\'' :: leftover value ∧ ∀ c ∈ body,c ≠ '\'' := by
  have free : ∀ c ∈ value.takeWhile (· ≠ '\''),c ≠ '\'' := by
    intro c mem
    exact of_decide_eq_true (all_eq_true.mp all_takeWhile c mem)
  have parts := takeWhile_append_dropWhile (p := (· ≠ '\'')) (l := value)
  refine ⟨value.takeWhile (· ≠ '\''),?_,free⟩
  have same : escape '\'' value = value.takeWhile (· ≠ '\'') ++ escape '\'' (fromQuote value) := by
    rw [← escapePlain free]
    exact congrArg _ parts.symm
  rw [same]
  cases rest : fromQuote value with
  | nil =>
    simp only [leftover,rest]
    simp [escape]
  | cons first =>
    have quote : first = '\'' := by
      have stop := List.head?_dropWhile_not (· ≠ '\'') value
      unfold fromQuote at rest
      rw [rest] at stop
      simpa using stop
    simp only [leftover,rest]
    simp [escape,quote]

inductive Shown (before : List Char) (p : Piece) : List Char → Prop where
  | hidden {value : String} (kind : p.kind = .string value) (led : Leads (encode (before ++ p.gap))) :
      Shown before p (maskChars ++ leftover value.toList)
  | kept (plain : ∀ value,p.kind = .string value → ¬Leads (encode (before ++ p.gap))) : Shown before p p.text

inductive ShownAll : List Char → List Piece → List Char → List Char → Prop where
  | done {before last : List Char} : ShownAll before [] last last
  | piece {before last token rest : List Char} {p : Piece} {pieces : List Piece} (shown : Shown before p token)
      (next : ShownAll (before ++ (p.gap ++ p.text)) pieces last rest) :
      ShownAll before (p :: pieces) last (p.gap ++ (token ++ rest))

section

variable [Unicode]

theorem readsRedacted (reads : Reads chars pieces last) (aligned : Aligned before pieces last) :
    ∃ parts rest shown,Parted (encode before) parts rest ∧ joined parts rest = encode chars ∧
      ShownAll before pieces last shown ∧ masked parts rest = encode shown := by
  induction reads generalizing before with
  | @done chars ended =>
    refine ⟨[],encode chars,chars,.last ?_,rfl,.done,rfl⟩
    intro lead rest whole led
    obtain ⟨front,after,split,rfl,_⟩ := encodeSplit whole
    rw [← encodeAppend] at led
    obtain ⟨earlier,_,_,_,none,_⟩ := aligned front after split led
    cases earlier <;> cases none
  | @token gap text rest last kind pieces skipped found next ih =>
    obtain ⟨_,filled,same⟩ := scanTokenReads found
    cases append_cancel_right same
    obtain ⟨_,_,_,parted,whole,shows,hides⟩ := ih (alignedNext aligned filled)
    by_cases hidden : ∃ value,kind = .string value ∧ Leads (encode (before ++ gap))
    · obtain ⟨value,rfl,led⟩ := hidden
      obtain ⟨rfl,_⟩ := stringText found
      obtain ⟨body,literal,free⟩ := literalParts value.toList
      have quoteless : (39 : UInt8) ∉ encode body := by
        intro mem
        obtain ⟨lead,more,split⟩ := append_of_mem mem
        obtain ⟨_,_,whole,_⟩ := encodeSplit split
        exact free '\'' (by rw [whole]; simp) rfl
      have longer (more : List Char) : gap ++ '\'' :: more ≠ gap := by
        intro same
        have := congrArg List.length same
        simp only [length_append,length_cons] at this
        omega
      have piece : gap ++ '\'' :: (escape '\'' value.toList ++ ['\'']) =
          gap ++ '\'' :: (body ++ '\'' :: leftover value.toList) := by rw [literal]
      have rest' : Unled (encode (before ++ (gap ++ '\'' :: (body ++ ['\''])))) (encode (leftover value.toList)) := by
        refine unledPiece (z := []) aligned (piece.trans (by simp)) ?_
        intro lead more _ same
        rw [append_assoc] at same
        exact absurd same (longer _)
      have text : encode (before ++ (gap ++ '\'' :: (body ++ ['\'']))) =
          encode before ++ encode gap ++ 39 :: (encode body ++ [39]) := by
        simp only [encodeAppend,encodeCons,encodeNil,append_assoc]
        rfl
      have all : encode (before ++ (gap ++ '\'' :: (escape '\'' value.toList ++ ['\'']))) =
          encode (before ++ (gap ++ '\'' :: (body ++ ['\'']))) ++ encode (leftover value.toList) := by
        rw [← encodeAppend,piece]
        simp
      rw [all] at parted
      obtain ⟨parts',last',parted',joins,masks⟩ := partedPrepend rest' parted
      rw [text] at parted'
      refine ⟨⟨encode gap,encode body⟩ :: parts',last',_,.part ?_ ?_ quoteless ?_ parted',?_,.piece (.hidden rfl led) shows,?_⟩
      · have := unledPiece (x := []) (y := gap) aligned rfl (by
          intro lead more split same
          rw [nil_append] at same
          rw [same] at split
          exact absurd split.symm (longer more))
        rwa [append_nil] at this
      · rwa [← encodeAppend]
      · intro wrong
        have lead : encode before ++ encode gap ++ 39 :: encode body = encode (before ++ (gap ++ '\'' :: body)) := by
          simp only [encodeAppend,encodeCons,append_assoc]
          rfl
        rw [lead] at wrong
        have outer : gap ++ '\'' :: (escape '\'' value.toList ++ ['\'']) = (gap ++ '\'' :: body) ++ '\'' :: leftover value.toList := by
          rw [piece]
          simp
        exact longer body (alignedPiece aligned outer wrong).1
      · have source : gap ++ ('\'' :: (escape '\'' value.toList ++ ['\'']) ++ rest) =
            gap ++ '\'' :: (body ++ '\'' :: (leftover value.toList ++ rest)) := by
          rw [← append_assoc,piece]
          simp
        rw [joined,joins,whole,source]
        simp only [encodeAppend,encodeCons]
        rfl
      · rw [masked,masks,hides]
        simp only [encodeAppend,append_assoc]
        rfl
    · have plain : ∀ value,kind = .string value → ¬Leads (encode (before ++ gap)) := by
        intro value same led
        exact hidden ⟨value,same,led⟩
      have free : Unled (encode (before ++ [])) (encode (gap ++ text)) :=
        unledPiece (z := []) aligned (by simp) fun _ _ _ _ => plain
      rw [append_nil] at free
      rw [encodeAppend] at parted
      obtain ⟨parts',last',parted',joins,masks⟩ := partedPrepend free parted
      refine ⟨parts',last',_,parted',?_,.piece (.kept plain) shows,?_⟩
      · rw [joins,whole]
        simp
      · rw [masks,hides]
        simp

theorem alignedRedacts (reads : Reads src.toList pieces last)
    (aligned : Aligned [] pieces last) : ∃ shown,ShownAll [] pieces last shown ∧ redactSql src = encode shown := by
  obtain ⟨parts,rest,shown,parted,whole,shows,hides⟩ := readsRedacted reads aligned
  refine ⟨shown,shows,?_⟩
  unfold redactSql
  rw [show utf8 src = joined parts rest from whole.symm,redactParted parted,hides]

end

/- The same tokens with the same texts between them, but for the contents of string literals
that sensitive keywords lead to; these contents are listed. `lead` is the text since the
last such literal. -/
inductive SameBut : List Char → List Piece → List Piece → List (String × String) → Prop where
  | nil {lead : List Char} : SameBut lead [] [] []
  | same {lead : List Char} {p : Piece} {pieces others : List Piece} {secrets : List (String × String)}
      (next : SameBut (lead ++ (p.gap ++ p.text)) pieces others secrets) : SameBut lead (p :: pieces) (p :: others) secrets
  | secret {lead gap text text' : List Char} {value value' : String} {pieces others : List Piece}
      {secrets : List (String × String)} (led : Leads (encode (lead ++ gap))) (next : SameBut [] pieces others secrets) :
      SameBut lead (⟨gap,.string value,text⟩ :: pieces) (⟨gap,.string value',text'⟩ :: others) ((value,value') :: secrets)

def Since (before lead : List Char) : Prop := before = lead ∨ ∃ front,before = front ++ '\'' :: lead

theorem sinceLeads (since : Since before lead) (gap) :
    Leads (encode (before ++ gap)) ↔ Leads (encode (lead ++ gap)) := by
  rcases since with rfl | ⟨front,rfl⟩
  · rfl
  · rw [append_assoc,cons_append,encodeAppend,encodeCons]
    exact leadsBehind (encode front) (encode (lead ++ gap))

theorem sinceMore (since : Since before lead) (more) : Since (before ++ more) (lead ++ more) := by
  rcases since with rfl | ⟨front,rfl⟩
  · exact .inl rfl
  · exact .inr ⟨front,by simp⟩

theorem leftoverInjective (plain : out.head? ≠ some '\'') (other : out'.head? ≠ some '\'')
    (same : leftover left ++ out = leftover right ++ out') : fromQuote left = fromQuote right ∧ out = out' := by
  have quote {value : List Char} {first : Char} {more : List Char} (rest : fromQuote value = first :: more) : first = '\'' := by
    have stop := List.head?_dropWhile_not (· ≠ '\'') value
    unfold fromQuote at rest
    rw [rest] at stop
    simpa using stop
  cases first : fromQuote left with
  | nil =>
    cases second : fromQuote right with
    | nil =>
      simp only [leftover,first,second,nil_append] at same
      exact ⟨rfl,same⟩
    | cons =>
      simp only [leftover,first,second,nil_append] at same
      rw [same] at plain
      exact absurd rfl plain
  | cons _ more =>
    cases second : fromQuote right with
    | nil =>
      simp only [leftover,first,second,nil_append] at same
      rw [← same] at other
      exact absurd rfl other
    | cons _ others =>
      simp only [leftover,first,second,cons_append,append_assoc,nil_append,List.cons.injEq,true_and] at same
      have left := quotedBack plain more []
      have right := quotedBack other others []
      rw [same,right] at left
      obtain ⟨values,rests⟩ := Prod.mk.inj (some.inj left)
      rw [quote first,quote second,show others = more from values]
      exact ⟨rfl,rests.symm⟩

theorem encodeInjective (same : encode left = encode right) : left = right := by
  have texts : String.ofList left = String.ofList right := by
    refine utf8Injective ?_
    rw [utf8OfList,utf8OfList]
    exact same
  exact String.ofList_injective texts

section

variable [Unicode]

theorem shownHead (reads : Reads chars pieces last)
    (shows : ShownAll before pieces last shown) (plain : chars.head? ≠ some '\'') : shown.head? ≠ some '\'' := by
  cases reads with
  | done =>
    cases shows
    exact plain
  | @token gap text rest _ kind pieces skipped found next =>
    obtain ⟨_,filled,same⟩ := scanTokenReads found
    cases append_cancel_right same
    cases shows with
    | piece token =>
      cases gap with
      | cons => exact plain
      | nil =>
        cases token with
        | hidden kind =>
          subst kind
          obtain ⟨rfl,_⟩ := stringText found
          exact absurd rfl plain
        | kept =>
          cases text with
          | nil => exact absurd rfl filled
          | cons => exact plain

theorem shownSame (alike : SameBut lead pieces others secrets) (reads : Reads chars pieces last)
    (reads' : Reads chars' others last) (since : Since before lead) (since' : Since before' lead)
    (shows : ShownAll before pieces last shown) (shows' : ShownAll before' others last shown') :
    shown = shown' ↔ ∀ pair ∈ secrets,fromQuote pair.1.toList = fromQuote pair.2.toList := by
  induction alike generalizing chars chars' before before' shown shown' with
  | nil =>
    cases shows
    cases shows'
    simp
  | @same lead p pieces others secrets next ih =>
    cases reads with
    | @token gap text _ _ kind _ _ _ more =>
    cases reads' with
    | token _ _ more' =>
    cases shows with
    | @piece _ _ token rest _ _ first shows =>
    cases shows' with
    | @piece _ _ token' rest' _ _ second shows' =>
    have tokens : token = token' := by
      have same := (sinceLeads since gap).trans (sinceLeads since' gap).symm
      cases first with
      | hidden kind led =>
        cases second with
        | hidden kind' led' =>
          cases Token.string.inj (kind.symm.trans kind')
          rfl
        | kept plain => exact absurd (same.mp led) (plain _ kind)
      | kept plain =>
        cases second with
        | hidden kind led => exact absurd (same.mpr led) (plain _ kind)
        | kept => rfl
    subst tokens
    rw [append_cancel_left_eq,append_cancel_left_eq]
    exact ih more more' (sinceMore since _) (sinceMore since' _) shows shows'
  | @secret lead gap text text' value value' pieces others secrets led next ih =>
    cases reads with
    | token _ found more =>
    cases reads' with
    | token _ found' more' =>
    cases shows with
    | @piece _ _ token rest _ _ first shows =>
    cases shows' with
    | @piece _ _ token' rest' _ _ second shows' =>
    obtain ⟨rfl,plain⟩ := stringText found
    obtain ⟨rfl,plain'⟩ := stringText found'
    have hidden : token = maskChars ++ leftover value.toList := by
      cases first with
      | hidden kind _ =>
        cases Token.string.inj kind
        rfl
      | kept plain => exact absurd ((sinceLeads since gap).mpr led) (plain _ rfl)
    have hidden' : token' = maskChars ++ leftover value'.toList := by
      cases second with
      | hidden kind _ =>
        cases Token.string.inj kind
        rfl
      | kept plain => exact absurd ((sinceLeads since' gap).mpr led) (plain _ rfl)
    subst hidden hidden'
    have closed (front text : List Char) : Since (front ++ (gap ++ '\'' :: (text ++ ['\'']))) [] :=
      .inr ⟨front ++ (gap ++ '\'' :: text),by simp⟩
    have later := ih more more' (closed _ _) (closed _ _) shows shows'
    rw [append_cancel_left_eq,append_assoc,append_assoc,append_cancel_left_eq,forall_mem_cons, ← later]
    refine ⟨leftoverInjective (shownHead more shows plain) (shownHead more' shows' plain'),?_⟩
    rintro ⟨same,rfl⟩
    have left : leftover value.toList = leftover value'.toList := by
      unfold leftover
      rw [show fromQuote value.toList = fromQuote value'.toList from same]
    rw [left]

end

section

attribute [local instance] plainLetters

def passwordWord : List Char := ['P','A','S','S','W','O','R','D']

def passwordPieces (value text : List Char) : List Piece :=
  [⟨[],.ident,passwordWord⟩,⟨[' '],.string (String.ofList value),'\'' :: text⟩]

theorem passwordReads {value text} (escaped : escape '\'' value ++ ['\''] = text) :
    Reads (passwordWord ++ ' ' :: '\'' :: text) (passwordPieces value text) [] := by
  have word : skip (passwordWord ++ ' ' :: '\'' :: text) = some (passwordWord ++ ' ' :: '\'' :: text) :=
    skipNothing (by decide) (by simp) (by simp)
  have literal : skip ([' '] ++ ('\'' :: text ++ [])) = some ('\'' :: text ++ []) := by
    rw [skipSpaces]
    exact literalOpens _
  have read : scanToken ('\'' :: text ++ []) = some (.string (String.ofList value),[]) := by
    have found := @quotedBack '\'' [] (by simp) value []
    rw [escaped] at found
    rw [append_nil]
    exact congrArg (Option.map _) found
  have ended : skip [] = some [] := by
    rw [skip]
    rfl
  have second := Reads.token literal read (.done ended)
  rw [append_nil] at second
  exact @Reads.token _ [] passwordWord _ _ _ _ word rfl second

theorem passwordAligned (free : ∀ c ∈ value,c ≠ '\'') (short : value.length ≤ 1) :
    Aligned [] (passwordPieces value (value ++ ['\''])) [] := by
  intro _ _ whole led
  have text : written (passwordPieces value (value ++ ['\''])) [] = passwordWord ++ [' '] ++ '\'' :: (value ++ '\'' :: []) := by
    simp [written,passwordPieces]
  rcases quoteCases (text.symm.trans whole) with ⟨x,early,_⟩ | ⟨same,_⟩ | ⟨x,rfl,behind⟩
  · exact absurd (show '\'' ∈ passwordWord ++ [' '] by rw [early]; simp) (by decide)
  · exact ⟨[⟨[],.ident,passwordWord⟩],_,[],_,rfl,rfl,same.symm⟩
  · rcases quoteCases behind with ⟨y,early,_⟩ | ⟨rfl,_⟩ | ⟨y,_,none⟩
    · exact absurd rfl (free '\'' (by rw [early]; simp))
    · have inner : Leads (encode value) := (leadsBehind (encode (passwordWord ++ [' '])) _).mp led
      obtain ⟨keyword,mem,_,_,_,bytes,lowered,_⟩ := inner
      have long : ∀ keyword ∈ sensitiveKeywords,5 ≤ keyword.length := by decide +kernel
      have size := long keyword mem
      have small : (encode value).length ≤ 4 := by
        cases value with
        | nil => exact Nat.zero_le 4
        | cons c more =>
          cases more with
          | nil =>
            rw [encodeCons,encodeNil,append_nil,String.length_utf8EncodeChar]
            exact c.utf8Size_le_four
          | cons =>
            simp only [length_cons] at short
            omega
      rw [← lowered,length_map] at size
      rw [bytes] at small
      simp only [length_append] at small
      omega
    · cases y <;> cases none

theorem passwordLed : Leads (encode (passwordWord ++ ([] ++ [' ']))) :=
  ⟨utf8 "password",mem_cons_self,[],encode passwordWord,[32],by decide +kernel,by decide +kernel,
    [32],[],rfl,by decide +kernel,.inl rfl⟩

end

end NoeDB.Redact
