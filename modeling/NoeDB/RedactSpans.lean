import NoeDB.Redact

/-! Which spans are masked: if no quote that a sensitive keyword leads to also closes the
literal before it, these are all the literals that sensitive keywords lead to. -/
namespace NoeDB.Redact
open ByteString Text List Nat Option UInt8 Prod

def Gap (gap : Bytes) : Prop :=
  ∃ left right,gap = left ++ right ∧ (∀ b ∈ left,isBlank b = true) ∧
    (right = [] ∨ ∃ more,right = 61 :: more ∧ ∀ b ∈ more,isBlank b = true)

def Leads (lead : Bytes) : Prop :=
  ∃ keyword ∈ sensitiveKeywords,∃ before word gap,lead = before ++ word ++ gap ∧ word.map lowerByte = keyword ∧ Gap gap

section

variable {needle bytes : Bytes} {n m : Nat}

theorem findSome (found : find needle bytes = some n) : needle <+: bytes.drop n ∧ ∀ m < n,¬needle <+: bytes.drop m := by
  induction bytes generalizing n with
  | nil => cases found
  | cons _ _ ih =>
    simp only [find] at found
    split at found
    · cases some.inj found
      exact ⟨by assumption,fun m early => by omega⟩
    · obtain ⟨k,inner,rfl⟩ := map_eq_some_iff.mp found
      obtain ⟨here,before⟩ := ih inner
      refine ⟨here,?_⟩
      intro m _
      cases m with
      | zero => assumption
      | succ m => exact before m (by omega)

theorem findExists (filled : needle ≠ []) (stands : needle <+: bytes.drop m) : ∃ n ≤ m,find needle bytes = some n := by
  induction bytes generalizing m with
  | nil => exact absurd (List.prefix_nil.mp (by simpa using stands)) filled
  | cons first rest ih =>
    by_cases here : needle <+: first :: rest
    · exact ⟨0,zero_le m,if_pos here⟩
    · cases m with
      | zero => exact absurd stands here
      | succ =>
        obtain ⟨n,_,found⟩ := ih stands
        exact ⟨n+1,by omega,by simp [find,if_neg here,found,map_some]⟩

theorem findQuote (found : find [39] bytes = some n) :
    ∃ body after,bytes = body ++ 39 :: after ∧ 39 ∉ body ∧ body.length = n := by
  induction bytes generalizing n with
  | nil => cases found
  | cons first _ ih =>
    simp only [find] at found
    split at found
    · rename_i here
      cases some.inj found
      obtain ⟨_,same⟩ := here
      cases same
      exact ⟨[],_,rfl,not_mem_nil,rfl⟩
    · rename_i other
      obtain ⟨k,inner,rfl⟩ := map_eq_some_iff.mp found
      obtain ⟨body,after,rfl,free,length⟩ := ih inner
      refine ⟨first :: body,after,rfl,?_,by simp [length]⟩
      intro mem
      rcases mem_cons.mp mem with rfl | mem
      · exact other ⟨_,rfl⟩
      · exact free mem

theorem quoteFound {after} (free : 39 ∉ body) : find [39] (body ++ 39 :: after) = some body.length := by
  induction body with
  | nil => exact if_pos ⟨after,rfl⟩
  | cons first rest ih =>
    have other : ¬[39] <+: first :: (rest ++ 39 :: after) := by
      rintro ⟨_,same⟩
      cases same
      exact free mem_cons_self
    rw [cons_append,find,if_neg other,ih fun mem => free (mem_cons_of_mem _ mem)]
    rfl

end

def gapLength (bytes : Bytes) : Nat :=
  let blank := (bytes.takeWhile isBlank).length
  if bytes[blank]? = some 61 then blank+1+((bytes.drop (blank+1)).takeWhile isBlank).length else blank

theorem quotePlaceGap (bytes i) : quotePlace bytes i = i+gapLength (bytes.drop i) := by
  have byte : (bytes.drop i)[((bytes.drop i).takeWhile isBlank).length]? = bytes[skipBlanks bytes i]? := List.getElem?_drop
  by_cases equals : bytes[skipBlanks bytes i]? = some 61
  · have left : quotePlace bytes i = skipBlanks bytes (skipBlanks bytes i+1) := if_pos equals
    unfold gapLength
    rw [left,if_pos (by rw [byte]; exact equals),drop_drop]
    unfold skipBlanks
    simp [add_assoc]
  · have left : quotePlace bytes i = skipBlanks bytes i := if_neg equals
    unfold gapLength
    rw [left,if_neg (by rw [byte]; exact equals)]
    rfl

theorem takeBlanks {left right : Bytes} (blank : ∀ b ∈ left,isBlank b = true) (stops : ∀ b ∈ right.head?,isBlank b = false) :
    (left ++ right).takeWhile isBlank = left := by
  rw [takeWhile_append_of_pos blank]
  cases right with
  | nil => exact append_nil left
  | cons first => rw [takeWhile_cons_of_neg (by rw [stops first rfl]; decide),append_nil]

theorem gapRead {gap after : Bytes} (is : Gap gap) : gapLength (gap ++ 39 :: after) = gap.length := by
  obtain ⟨left,_,rfl,blank,kind⟩ := is
  rcases kind with rfl | ⟨more,rfl,blanks⟩
  · have taken : (left ++ [] ++ 39 :: after).takeWhile isBlank = left := by
      rw [append_nil]
      exact takeBlanks blank (by simp [isBlank])
    unfold gapLength
    rw [taken,if_neg (by simp)]
    simp
  · have taken : (left ++ 61 :: more ++ 39 :: after).takeWhile isBlank = left := by
      rw [append_assoc]
      exact takeBlanks blank (by simp [isBlank])
    have rest : (left ++ 61 :: more ++ 39 :: after).drop (left.length+1) = more ++ 39 :: after := by
      simp
    unfold gapLength
    rw [taken,if_pos (by simp),rest,takeBlanks blanks (by simp [isBlank])]
    simp only [length_append,length_cons]
    omega

theorem dropPast (left b) (right : Bytes) : (left ++ b :: right).drop (left.length+1) = right := by
  rw [drop_append,drop_eq_nil_of_le (by omega),nil_append,Nat.add_sub_cancel_left]
  rfl

theorem firstBehind {left right : Bytes} {b : UInt8} (found : (left ++ right)[left.length]? = some b) :
    ∃ rest,right = b :: rest := by
  rw [List.getElem?_append_right (Nat.le_refl _),Nat.sub_self] at found
  cases right with
  | nil => cases found
  | cons _ rest => exact ⟨rest,by rw [some.inj found]⟩

theorem gapOf {bytes : Bytes} (quote : bytes[gapLength bytes]? = some 39) :
    ∃ gap after,bytes = gap ++ 39 :: after ∧ Gap gap := by
  have blank (l : Bytes) : ∀ b ∈ l.takeWhile isBlank,isBlank b = true := all_eq_true.mp all_takeWhile
  have parts := takeWhile_append_dropWhile (p := isBlank) (l := bytes)
  by_cases equals : bytes[(bytes.takeWhile isBlank).length]? = some 61
  · obtain ⟨rest,behind⟩ : ∃ rest,bytes.dropWhile isBlank = 61 :: rest := by
      refine @firstBehind (bytes.takeWhile isBlank) _ _ ?_
      rw [parts]
      exact equals
    have again := takeWhile_append_dropWhile (p := isBlank) (l := rest)
    have whole : bytes = (bytes.takeWhile isBlank ++ 61 :: rest.takeWhile isBlank) ++ rest.dropWhile isBlank := by
      rw [append_assoc,cons_append,again,← behind,parts]
    have dropped : bytes.drop ((bytes.takeWhile isBlank).length+1) = rest := by
      have split : bytes = bytes.takeWhile isBlank ++ 61 :: rest := by rw [← behind,parts]
      exact (congrArg (List.drop _) split).trans (dropPast ..)
    have length : gapLength bytes = (bytes.takeWhile isBlank ++ 61 :: rest.takeWhile isBlank).length := by
      unfold gapLength
      rw [if_pos equals,dropped,length_append,length_cons]
      omega
    rw [length] at quote
    obtain ⟨after,last⟩ := @firstBehind (bytes.takeWhile isBlank ++ 61 :: rest.takeWhile isBlank) (rest.dropWhile isBlank) 39
      (by rw [← whole]; exact quote)
    refine ⟨bytes.takeWhile isBlank ++ 61 :: rest.takeWhile isBlank,after,?_,_,_,rfl,blank bytes,.inr ⟨_,rfl,blank rest⟩⟩
    rw [← last,← whole]
  · have length : gapLength bytes = (bytes.takeWhile isBlank).length := if_neg equals
    rw [length] at quote
    obtain ⟨after,last⟩ := @firstBehind (bytes.takeWhile isBlank) (bytes.dropWhile isBlank) 39 (by rw [parts]; exact quote)
    refine ⟨bytes.takeWhile isBlank,after,?_,_,[],(append_nil _).symm,blank bytes,.inl rfl⟩
    rw [← last,parts]

theorem spanIff : nextLiteralSpan (before ++ rest) before.length = some (start,stop) ↔
      ∃ gap body after,rest = gap ++ 39 :: (body ++ 39 :: after) ∧ Gap gap ∧ 39 ∉ body ∧
        start = before.length+gap.length ∧ stop = start+body.length+2 := by
  have place : quotePlace (before ++ rest) before.length = before.length+gapLength rest := by
    rw [quotePlaceGap,drop_left]
  have byte : (before ++ rest)[before.length+gapLength rest]? = rest[gapLength rest]? := by
    rw [List.getElem?_append_right (Nat.le_add_right _ _),Nat.add_sub_cancel_left]
  have behind : (before ++ rest).drop (before.length+gapLength rest+1) = rest.drop (gapLength rest+1) := by
    rw [drop_append,drop_eq_nil_of_le (by omega),nil_append]
    congr 1
    omega
  unfold nextLiteralSpan
  simp only [place,byte,behind]
  refine ⟨?_,?_⟩
  · intro found
    split at found
    · rename_i quote
      obtain ⟨n,read,same⟩ := map_eq_some_iff.mp found
      obtain ⟨rfl,rfl⟩ := mk.inj same
      obtain ⟨gap,after,rfl,is⟩ := gapOf quote
      rw [gapRead is] at read ⊢
      rw [dropPast] at read
      obtain ⟨body,more,rfl,free,length⟩ := findQuote read
      exact ⟨gap,body,more,rfl,is,free,rfl,by omega⟩
    · cases found
  · rintro ⟨gap,body,after,rfl,is,free,rfl,rfl⟩
    have quote : (gap ++ 39 :: (body ++ 39 :: after))[gap.length]? = some 39 := by
      rw [List.getElem?_append_right (Nat.le_refl _),Nat.sub_self]
      rfl
    rw [gapRead is,if_pos quote,dropPast,quoteFound free]
    simp only [map_some,some.injEq,mk.injEq,true_and]
    omega

def KeywordHit (keyword bytes : Bytes) (k start stop : Nat) : Prop :=
  keyword <+: (bytes.map lowerByte).drop k ∧ nextLiteralSpan bytes (k+keyword.length) = some (start,stop)

def Hit (bytes : Bytes) (start stop : Nat) : Prop :=
  ∃ keyword ∈ sensitiveKeywords,∃ k,KeywordHit keyword bytes k start stop

/- No keyword begins with what may stand in a gap, none holds a quote, and none begins
again before its end. -/
structure Plain (keyword : Bytes) : Prop where
  first : ∃ b rest,keyword = b :: rest ∧ isBlank b = false ∧ b ≠ 61 ∧ b ≠ 39
  unquoted : 39 ∉ keyword
  borderless : ∀ d,0 < d → d < keyword.length → ¬keyword.drop d <+: keyword

theorem keywordsPlain (mem : keyword ∈ sensitiveKeywords) : Plain keyword := by
  have firsts : ∀ keyword ∈ sensitiveKeywords,keyword.head?.any (fun b => !isBlank b && b != 61 && b != 39) = true := by
    decide +kernel
  have quotes : ∀ keyword ∈ sensitiveKeywords,39 ∉ keyword := by decide +kernel
  have borders : ∀ keyword ∈ sensitiveKeywords,∀ d < keyword.length,0 < d → ¬keyword.drop d <+: keyword := by decide +kernel
  refine ⟨?_,quotes keyword mem,fun d positive short => borders keyword mem d short positive⟩
  have first := firsts keyword mem
  cases keyword with
  | nil => cases first
  | cons b rest =>
    simp only [List.head?_cons,any_some,Bool.and_eq_true,Bool.not_eq_true',bne_iff_ne,ne_eq] at first
    exact ⟨b,rest,rfl,first.1.1,first.1.2,first.2⟩

theorem lowerKeeps (lowered : lowerByte b = c) (plain : isBlank c = false ∧ c ≠ 61 ∧ c ≠ 39) :
    isBlank b = false ∧ b ≠ 61 ∧ b ≠ 39 := by
  have all : ∀ n : Fin 256,isBlank (lowerByte (ofFin n)) = false ∧ lowerByte (ofFin n) ≠ 61 ∧
      lowerByte (ofFin n) ≠ 39 →
      isBlank (ofFin n) = false ∧ ofFin n ≠ 61 ∧ ofFin n ≠ 39 := by decide +kernel
  subst lowered
  exact all b.toFin plain

theorem lowerQuote (lowered : lowerByte b ≠ 39) : b ≠ 39 := by
  rintro rfl
  exact lowered (by decide)

section

variable {keyword bytes : Bytes} {k start stop : Nat}

theorem wordSplit (stands : keyword <+: (bytes.map lowerByte).drop k) (plain : Plain keyword) :
    ∃ before word rest,bytes = before ++ word ++ rest ∧ before.length = k ∧ word.map lowerByte = keyword ∧
      word.length = keyword.length := by
  obtain ⟨first,_,same,_⟩ := plain.first
  obtain ⟨_,whole⟩ := stands
  have inside : k ≤ bytes.length := by
    by_contra beyond
    rw [drop_eq_nil_of_le (by rw [length_map]; omega)] at whole
    rw [same] at whole
    cases whole
  rw [← map_drop] at whole
  have split := map_eq_append_iff.mp whole.symm
  obtain ⟨word,rest,behind,lowered,_⟩ := split
  refine ⟨bytes.take k,word,rest,?_,length_take_of_le inside,lowered,by rw [← lowered,length_map]⟩
  rw [append_assoc,← behind,take_append_drop]

theorem hitSplit (hit : KeywordHit keyword bytes k start stop) (plain : Plain keyword) :
    ∃ before word gap body after,bytes = before ++ word ++ gap ++ 39 :: (body ++ 39 :: after) ∧ before.length = k ∧
      word.map lowerByte = keyword ∧ Gap gap ∧ 39 ∉ body ∧
      start = (before ++ word ++ gap).length ∧ stop = start+body.length+2 := by
  obtain ⟨before,word,_,rfl,length,lowered,size⟩ := wordSplit hit.1 plain
  have span := hit.2
  rw [show k+keyword.length = (before ++ word).length by rw [length_append,length,size]] at span
  obtain ⟨gap,body,after,rfl,is,free,first,last⟩ := spanIff.mp span
  refine ⟨before,word,gap,body,after,?_,length,lowered,is,free,?_,last⟩
  · rw [append_assoc (before ++ word)]
  · rw [first,@length_append _ (before ++ word) _]

theorem hitLeads : Hit bytes start stop ↔
    ∃ lead body after,bytes = lead ++ 39 :: (body ++ 39 :: after) ∧ 39 ∉ body ∧ Leads lead ∧
      start = lead.length ∧ stop = start+body.length+2 := by
  refine ⟨?_,?_⟩
  · rintro ⟨keyword,mem,k,hit⟩
    obtain ⟨before,word,gap,body,after,whole,_,lowered,is,free,first,last⟩ := hitSplit hit (keywordsPlain mem)
    exact ⟨before ++ word ++ gap,body,after,whole,free,⟨keyword,mem,before,word,gap,rfl,lowered,is⟩,first,last⟩
  · rintro ⟨_,body,after,rfl,free,⟨keyword,mem,before,word,gap,rfl,lowered,is⟩,rfl,rfl⟩
    refine ⟨keyword,mem,before.length,?_,?_⟩
    · rw [← map_drop,append_assoc,append_assoc,drop_left,map_append,lowered]
      exact List.prefix_append _ _
    · have size : before.length+keyword.length = (before ++ word).length := by
        rw [length_append,← lowered,length_map]
      rw [size,append_assoc (before ++ word)]
      refine spanIff.mpr ⟨gap,body,after,rfl,is,free,?_,rfl⟩
      rw [@length_append _ (before ++ word) _]

theorem keywordSpansSound {span} (mem : span ∈ keywordSpans keyword bytes fuel from') :
    ∃ k,KeywordHit keyword bytes k span.1 span.2 := by
  induction fuel generalizing from' with
  | zero => cases mem
  | succ _ ih =>
    simp only [keywordSpans] at mem
    cases found : find keyword ((bytes.map lowerByte).drop from') with
    | none =>
      simp only [found] at mem
      cases mem
    | some n =>
      simp only [found] at mem
      cases next : nextLiteralSpan bytes (from'+n+keyword.length) with
      | none =>
        simp only [next] at mem
        exact ih mem
      | some =>
        simp only [next] at mem
        rcases mem_cons.mp mem with rfl | mem
        · refine ⟨from'+n,?_,next⟩
          have stands := (findSome found).1
          rwa [drop_drop] at stands
        · exact ih mem

structure HitFacts (bytes : Bytes) (k wordEnd start stop : Nat) : Prop where
  order : k < wordEnd ∧ wordEnd ≤ start ∧ start+2 ≤ stop ∧ stop ≤ bytes.length
  first : ∃ b,bytes[k]? = some b ∧ isBlank b = false ∧ b ≠ 61 ∧ b ≠ 39
  before : ∀ j,k ≤ j → j < start → bytes[j]? ≠ some 39
  gap : ∀ j b,wordEnd ≤ j → j < start → bytes[j]? = some b → isBlank b = true ∨ b = 61
  opens : bytes[start]? = some 39
  closes : bytes[stop-1]? = some 39
  inside : ∀ j,start < j → j+1 < stop → bytes[j]? ≠ some 39

theorem gapBytes (is : Gap gap) {b : UInt8} (mem : b ∈ gap) : isBlank b = true ∨ b = 61 := by
  obtain ⟨_,_,rfl,blank,kind⟩ := is
  rcases mem_append.mp mem with mem | mem
  · exact .inl (blank b mem)
  · rcases kind with rfl | ⟨_,rfl,blanks⟩
    · cases mem
    · rcases mem_cons.mp mem with rfl | mem
      · exact .inr rfl
      · exact .inl (blanks b mem)

theorem hitFacts (hit : KeywordHit keyword bytes k start stop) (plain : Plain keyword) :
    HitFacts bytes k (k+keyword.length) start stop := by
  obtain ⟨b,_,same,blank,equals,quote⟩ := plain.first
  obtain ⟨before,word,gap,body,after,rfl,length,lowered,is,free,first,last⟩ := hitSplit hit plain
  have size : word.length = keyword.length := by rw [← lowered,length_map]
  have positive : 0 < keyword.length := by rw [same]; exact succ_pos _
  rw [length_append,length_append,length,size] at first
  have at' (i : Nat) : (before ++ word ++ gap ++ 39 :: (body ++ 39 :: after))[k+i]? =
      (word ++ (gap ++ 39 :: (body ++ 39 :: after)))[i]? := by
    rw [append_assoc,append_assoc,List.getElem?_append_right (by omega),length,Nat.add_sub_cancel_left]
  have behind (i : Nat) : (before ++ word ++ gap ++ 39 :: (body ++ 39 :: after))[k+(keyword.length+i)]? =
      (gap ++ 39 :: (body ++ 39 :: after))[i]? := by
    rw [at',List.getElem?_append_right (by omega),size,Nat.add_sub_cancel_left]
  have past (i : Nat) : (before ++ word ++ gap ++ 39 :: (body ++ 39 :: after))[start+i]? = (39 :: (body ++ 39 :: after))[i]? := by
    rw [first,show k+keyword.length+gap.length+i = k+(keyword.length+(gap.length+i)) by omega,behind,
      List.getElem?_append_right (by omega),Nat.add_sub_cancel_left]
  have unquoted : ∀ b ∈ word,b ≠ 39 := by
    intro b mem
    refine lowerQuote fun same => plain.unquoted ?_
    rw [← same,← lowered]
    exact mem_map_of_mem mem
  refine ⟨?_,?_,?_,?_,past 0,?_,?_⟩
  · refine ⟨by omega,by omega,by omega,?_⟩
    simp only [length_append,length_cons]
    omega
  · cases word with
    | nil =>
      simp only [length_nil] at size
      omega
    | cons c =>
      rw [same] at lowered
      refine ⟨c,at' 0,lowerKeeps (List.cons.inj lowered).1 ⟨blank,equals,quote⟩⟩
  · intro j low high
    obtain ⟨i,rfl⟩ : ∃ i,j = k+i := ⟨j-k,by omega⟩
    rw [at']
    intro found
    by_cases short : i < word.length
    · rw [List.getElem?_append_left short] at found
      exact unquoted 39 (mem_of_getElem? found) rfl
    · rw [List.getElem?_append_right (by omega),List.getElem?_append_left (by omega)] at found
      rcases gapBytes is (mem_of_getElem? found) with blank | equals
      · exact absurd blank (by decide)
      · exact absurd equals (by decide)
  · intro j b low high found
    obtain ⟨i,rfl⟩ : ∃ i,j = k+(keyword.length+i) := ⟨j-k-keyword.length,by omega⟩
    rw [behind,List.getElem?_append_left (by omega)] at found
    exact gapBytes is (mem_of_getElem? found)
  · rw [last,show start+body.length+2-1 = start+(body.length+1) by omega,past,List.getElem?_cons_succ,
      List.getElem?_append_right (Nat.le_refl _),Nat.sub_self]
    rfl
  · intro j _ _
    obtain ⟨i,rfl⟩ : ∃ i,j = start+(i+1) := ⟨j-start-1,by omega⟩
    rw [past,List.getElem?_cons_succ,List.getElem?_append_left (by omega)]
    intro found
    exact free (mem_of_getElem? found)

theorem standsApart (plain : Plain keyword) (stands : keyword <+: (bytes.map lowerByte).drop k)
    (again : keyword <+: (bytes.map lowerByte).drop other) (later : k < other) : k+keyword.length ≤ other := by
  by_contra overlaps
  refine plain.borderless (other-k) (by omega) (by omega) ?_
  have shifted : keyword.drop (other-k) <+: (bytes.map lowerByte).drop other := by
    obtain ⟨more,whole⟩ := stands
    refine ⟨more,?_⟩
    rw [← drop_append_of_le_length (by omega),whole,drop_drop,show k+(other-k) = other by omega]
  exact List.prefix_of_prefix_length_le shifted again (by rw [length_drop]; omega)

def Apart (bytes : Bytes) : Prop := ∀ start stop stop',Hit bytes start stop → ¬Hit bytes (stop-1) stop'

theorem keywordSpansComplete (mem : keyword ∈ sensitiveKeywords) (apart : Apart bytes)
    (enough : bytes.length < from'+fuel) (later : from' ≤ k) (hit : KeywordHit keyword bytes k start stop) :
    (start,stop) ∈ keywordSpans keyword bytes fuel from' := by
  have plain := keywordsPlain mem
  have facts := hitFacts hit plain
  induction fuel generalizing from' with
  | zero =>
    have := facts.order
    omega
  | succ _ ih =>
    have stands : keyword <+: ((bytes.map lowerByte).drop from').drop (k-from') := by
      rw [drop_drop,show from'+(k-from') = k by omega]
      exact hit.1
    obtain ⟨first,_,same,_⟩ := plain.first
    obtain ⟨n,_,found⟩ := findExists (by rw [same]; exact cons_ne_nil _ _) stands
    have here := (findSome found).1
    rw [drop_drop] at here
    have positive : 0 < keyword.length := by rw [same]; exact succ_pos _
    simp only [keywordSpans,found]
    by_cases own : from'+n = k
    · rw [own,hit.2]
      exact mem_cons_self
    · have behind := standsApart plain here hit.1 (by omega)
      cases next : nextLiteralSpan bytes (from'+n+keyword.length) with
      | none => exact ih (by omega) behind
      | some span =>
        have earlier : KeywordHit keyword bytes (from'+n) span.1 span.2 := ⟨here,next⟩
        have known := hitFacts earlier plain
        refine mem_cons_of_mem _ (ih ?_ ?_)
        · have := known.order
          omega
        by_contra inside
        obtain ⟨b,byte,blank,equals,quote⟩ := facts.first
        have beyond : span.1 < k := by
          by_contra short
          by_cases same : k = span.1
          · rw [same,known.opens] at byte
            exact quote (some.inj byte).symm
          · rcases known.gap k b behind (by omega) byte with is | is
            · rw [blank] at is
              cases is
            · exact equals is
        have closing : start = span.2-1 := by
          have low : start ≤ span.2-1 := by
            by_contra high
            exact facts.before (span.2-1) (by omega) (by omega) known.closes
          by_contra other
          have := facts.order
          exact known.inside start (by omega) (by omega) facts.opens
        exact apart span.1 span.2 stop ⟨keyword,mem,_,earlier⟩ ⟨keyword,mem,k,by rw [← closing]; exact hit⟩

theorem spansCollected (apart : Apart bytes) (span : Nat × Nat) :
    span ∈ (sensitiveKeywords.flatMap fun keyword => keywordSpans keyword bytes (bytes.length+1) 0) ↔
      Hit bytes span.1 span.2 := by
  rw [mem_flatMap]
  refine ⟨?_,?_⟩
  · rintro ⟨keyword,mem,found⟩
    obtain ⟨k,hit⟩ := keywordSpansSound found
    exact ⟨keyword,mem,k,hit⟩
  · rintro ⟨keyword,mem,k,hit⟩
    exact ⟨keyword,mem,keywordSpansComplete mem apart (by omega) (zero_le k) hit⟩

end

structure Part where
  plain : Bytes
  body : Bytes

def joined : List Part → Bytes → Bytes
  | [],last => last
  | p :: parts,last => p.plain ++ 39 :: (p.body ++ 39 :: joined parts last)

theorem joinedCons (before p parts last) : before ++ joined (p :: parts) last =
    before ++ p.plain ++ 39 :: (p.body ++ [39]) ++ joined parts last := by
  simp [joined]

theorem literalLength (before) (p : Part) :
    (before ++ p.plain ++ 39 :: (p.body ++ [39])).length = before.length+p.plain.length+p.body.length+2 := by
  simp only [length_append,length_cons,length_nil]
  omega

def masked : List Part → Bytes → Bytes
  | [],last => last
  | p :: parts,last => p.plain ++ maskText ++ masked parts last

def spansOf : Nat → List Part → List (Nat × Nat)
  | _,[] => []
  | offset,p :: parts =>
      (offset+p.plain.length,offset+p.plain.length+p.body.length+2) :: spansOf (offset+p.plain.length+p.body.length+2) parts

def Unled (before text : Bytes) : Prop := ∀ lead rest,text = lead ++ 39 :: rest → ¬Leads (before ++ lead)

inductive Parted : Bytes → List Part → Bytes → Prop where
  | last {before last : Bytes} (free : Unled before last) : Parted before [] last
  | part {before last : Bytes} {p : Part} {parts : List Part} (free : Unled before p.plain) (led : Leads (before ++ p.plain))
      (closed : 39 ∉ p.body) (apart : ¬Leads (before ++ p.plain ++ 39 :: p.body))
      (next : Parted (before ++ p.plain ++ 39 :: (p.body ++ [39])) parts last) : Parted before (p :: parts) last

theorem quoteCases {α : Type} {quote : α} {a b c d : List α} (same : a ++ quote :: b = c ++ quote :: d) :
    (∃ x,a = c ++ quote :: x ∧ d = x ++ quote :: b) ∨ (a = c ∧ b = d) ∨ (∃ x,c = a ++ quote :: x ∧ b = x ++ quote :: d) := by
  rcases append_eq_append_iff.mp same with ⟨x,rfl,rest⟩ | ⟨x,rfl,rest⟩
  · cases x with
    | nil =>
      exact .inr (.inl ⟨(append_nil a).symm,(List.cons.inj rest).2⟩)
    | cons _ more =>
      obtain ⟨rfl,behind⟩ := List.cons.inj rest
      exact .inr (.inr ⟨more,rfl,behind⟩)
  · cases x with
    | nil =>
      exact .inr (.inl ⟨append_nil c,((List.cons.inj rest).2).symm⟩)
    | cons _ more =>
      obtain ⟨rfl,behind⟩ := List.cons.inj rest
      exact .inl ⟨more,rfl,behind⟩

theorem quoteUnique {a b c d : Bytes} (free : 39 ∉ a) (other : 39 ∉ c) (same : a ++ 39 :: b = c ++ 39 :: d) : a = c ∧ b = d := by
  rcases quoteCases same with ⟨x,rfl,_⟩ | both | ⟨x,rfl,_⟩
  · exact absurd (mem_append_right _ mem_cons_self) free
  · exact both
  · exact absurd (mem_append_right _ mem_cons_self) other

section

variable {before last : Bytes} {parts : List Part}

theorem spansOfOrdered (offset parts) :
    (spansOf offset parts).Pairwise (fun a b => a.2 ≤ b.1) ∧ ∀ a ∈ spansOf offset parts,offset ≤ a.1 ∧ a.1+2 ≤ a.2 := by
  induction parts generalizing offset with
  | nil => exact ⟨.nil,by simp [spansOf]⟩
  | cons p _ ih =>
    obtain ⟨ordered,bounds⟩ := ih (offset+p.plain.length+p.body.length+2)
    refine ⟨pairwise_cons.mpr ⟨fun b mem => (bounds b mem).1,ordered⟩,?_⟩
    intro a mem
    rcases mem_cons.mp mem with rfl | mem
    · exact ⟨by simp only; omega,by simp only; omega⟩
    · have := bounds a mem
      omega

theorem hitsParted (parted : Parted before parts last) {start stop : Nat} (behind : before.length ≤ start) :
    Hit (before ++ joined parts last) start stop ↔ (start,stop) ∈ spansOf before.length parts := by
  induction parted with
  | @last before last free =>
    refine ⟨?_,fun mem => by cases mem⟩
    intro hit
    obtain ⟨lead,body,after,whole,_,leads,rfl,_⟩ := hitLeads.mp hit
    obtain ⟨more,rfl⟩ := List.prefix_of_prefix_length_le ⟨_,rfl⟩ ⟨_,whole.symm⟩ behind
    rw [append_assoc] at whole
    exact absurd leads (free more _ (append_cancel_left whole))
  | @part before last p parts free led closed apart next ih =>
    rw [literalLength] at ih
    refine ⟨?_,?_⟩
    · intro hit
      obtain ⟨_,body,after,whole,unquoted,leads,rfl,rfl⟩ := hitLeads.mp hit
      obtain ⟨more,rfl⟩ := List.prefix_of_prefix_length_le ⟨_,rfl⟩ ⟨_,whole.symm⟩ behind
      have inner : p.plain ++ 39 :: (p.body ++ 39 :: joined parts last) = more ++ 39 :: (body ++ 39 :: after) := by
        rw [append_assoc] at whole
        exact append_cancel_left whole
      rcases quoteCases inner with ⟨x,early,_⟩ | ⟨rfl,rest⟩ | ⟨x,rfl,rest⟩
      · exact absurd leads (free more x early)
      · obtain ⟨rfl,_⟩ := quoteUnique closed unquoted rest
        rw [length_append]
        exact mem_cons_self
      · rcases quoteCases rest with ⟨y,early,_⟩ | ⟨rfl,_⟩ | ⟨y,rfl,_⟩
        · rw [early] at closed
          exact absurd (mem_append_right _ mem_cons_self) closed
        · rw [← append_assoc] at leads
          exact absurd leads apart
        · refine mem_cons_of_mem _ ((ih ?_).mp ?_)
          · simp only [length_append,length_cons]
            omega
          · rw [← joinedCons]
            exact hit
    · intro mem
      rcases mem_cons.mp mem with same | mem
      · obtain ⟨rfl,rfl⟩ := mk.inj same
        refine hitLeads.mpr ⟨before ++ p.plain,p.body,joined parts last,?_,closed,led,length_append.symm,rfl⟩
        simp [joined]
      · have late := ((spansOfOrdered _ parts).2 _ mem).1
        rw [joinedCons]
        exact (ih late).mpr mem

theorem spansOfApart (first : (start,stop) ∈ spansOf offset parts) : (stop-1,stop') ∉ spansOf offset parts := by
  induction parts generalizing offset with
  | nil => cases first
  | cons p parts ih =>
    have bounds := (spansOfOrdered (offset+p.plain.length+p.body.length+2) parts).2
    intro second
    rcases mem_cons.mp first with same | first
    · obtain ⟨_,rfl⟩ := mk.inj same
      rcases mem_cons.mp second with again | second
      · have := (mk.inj again).1
        omega
      · have := (bounds _ second).1
        omega
    · have low := bounds _ first
      rcases mem_cons.mp second with again | second
      · have := (mk.inj again).1
        omega
      · exact ih first second

theorem partedApart (parted : Parted [] parts last) : Apart (joined parts last) := by
  intro start stop _ hit other
  exact spansOfApart ((hitsParted parted (zero_le start)).mp hit) ((hitsParted parted (zero_le (stop-1))).mp other)

theorem applyParts (before parts last) :
    applySpans (before ++ joined parts last) (spansOf before.length parts) before.length = masked parts last := by
  induction parts generalizing before with
  | nil => exact drop_left
  | cons p parts ih =>
    have rest := ih (before ++ p.plain ++ 39 :: (p.body ++ [39]))
    rw [literalLength,← joinedCons] at rest
    have copied : ((before ++ joined (p :: parts) last).take (before.length+p.plain.length)).drop before.length = p.plain := by
      rw [joined,← append_assoc,← length_append,take_left,drop_left]
    rw [spansOf,applySpans,if_neg (by omega),copied,rest,masked]

end

section

variable {spans : List (Nat × Nat)}

theorem dedupMem (spans a) : a ∈ dedup spans ↔ a ∈ spans := by
  fun_induction dedup spans with
  | case1 b _ ih =>
    rw [ih]
    refine ⟨mem_cons_of_mem b,?_⟩
    intro mem
    rcases mem_cons.mp mem with rfl | mem
    · exact mem_cons_self
    · exact mem
  | case2 _ _ _ _ ih => rw [mem_cons,mem_cons,ih]
  | case3 => rfl

theorem spanLeAntisymm (le : spanLe a b) (ge : spanLe b a) : a = b := by
  unfold spanLe at le ge
  exact Prod.ext (by omega) (by omega)

theorem dedupStrict (sorted : spans.Pairwise spanLe) : (dedup spans).Pairwise fun a b => spanLe a b ∧ a ≠ b := by
  fun_induction dedup spans with
  | case1 _ _ ih => exact ih (pairwise_cons.mp sorted).2
  | case2 b c _ different ih =>
    obtain ⟨first,others⟩ := pairwise_cons.mp sorted
    refine pairwise_cons.mpr ⟨?_,ih others⟩
    intro d mem
    rw [dedupMem] at mem
    refine ⟨first d mem,?_⟩
    rintro rfl
    rcases mem_cons.mp mem with same | mem
    · exact different same
    · exact different (spanLeAntisymm (first c mem_cons_self) ((pairwise_cons.mp others).1 b mem))
  | case3 spans short =>
    cases spans with
    | nil => exact .nil
    | cons a rest =>
      cases rest with
      | nil => exact pairwise_singleton _ _
      | cons b more => exact absurd rfl (short a b more)

theorem dedupSorted (strict : ordered.Pairwise fun a b => a.1 < b.1)
    (same : ∀ a,a ∈ spans ↔ a ∈ ordered) : dedup (spans.insertionSort spanLe) = ordered := by
  have total : Std.Total spanLe := ⟨fun a b => by unfold spanLe; omega⟩
  have trans : IsTrans (Nat × Nat) spanLe := ⟨fun a b c => by unfold spanLe; omega⟩
  have deduped := dedupStrict (pairwise_insertionSort spanLe spans)
  have sorted : ordered.Pairwise spanLe := strict.imp .inl
  refine List.Perm.eq_of_pairwise (fun a b _ _ => spanLeAntisymm) (deduped.imp And.left) sorted ?_
  refine (perm_ext_iff_of_nodup (deduped.imp And.right) (strict.imp ?_)).mpr ?_
  · rintro a b _ rfl
    omega
  · intro a
    rw [dedupMem,mem_insertionSort,same]

end

theorem redactParted (parted : Parted [] parts last) : redactBytes (joined parts last) = masked parts last := by
  have members (span : Nat × Nat) : span ∈ (sensitiveKeywords.flatMap fun keyword =>
        keywordSpans keyword (joined parts last) ((joined parts last).length+1) 0) ↔ span ∈ spansOf 0 parts := by
    rw [spansCollected (partedApart parted)]
    exact hitsParted parted (zero_le _)
  unfold redactBytes
  by_cases none : (sensitiveKeywords.flatMap fun keyword =>
      keywordSpans keyword (joined parts last) ((joined parts last).length+1) 0) = []
  · rw [if_pos none]
    cases parts with
    | nil => rfl
    | cons =>
      have := (members _).mpr mem_cons_self
      rw [none] at this
      cases this
  · rw [if_neg none,dedupSorted _ members]
    · exact applyParts [] parts last
    · obtain ⟨ordered,bounds⟩ := spansOfOrdered 0 parts
      refine ordered.imp_of_mem ?_
      intro a b inA _ _
      have := (bounds a inA).2
      omega

end NoeDB.Redact
