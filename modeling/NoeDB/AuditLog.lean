import NoeDB.Dml
import NoeDB.Sha256

/-! The audit log (audit.rs): one JSON text a line, each entry with the hash of the entry
before it and its own fields. The fields are hashed one after the other without a
separator. -/
namespace NoeDB.AuditLog
open ByteString Text Sha256 Dml List

def genesis : String := String.ofList (List.replicate 64 '0')

structure AuditEntry where
  tsUnixMs : UInt64
  tenant : String
  user : String
  query : String
  rowsAffected : UInt64
  chainHash : String
  deriving DecidableEq, Repr

def hexDigit (n : Nat) : Char := Char.ofNat (if n < 10 then 48+n else 87+n)

def hexEncode (bytes : Bytes) : String :=
  String.ofList (bytes.flatMap fun b => [hexDigit (b.toNat/16),hexDigit (b.toNat%16)])

def linkData (prev : String) (ts : UInt64) (tenant user query : String) (rows : UInt64) : Bytes :=
  utf8 prev ++ (leBytes 8 ts.toNat ++ (utf8 tenant ++ (utf8 user ++ (utf8 query ++ leBytes 8 rows.toNat))))

def chainLink (prev : String) (ts : UInt64) (tenant user query : String) (rows : UInt64) : String :=
  hexEncode (sha256 (linkData prev ts tenant user query rows))

/- The lines of a text: a carriage return before the line feed belongs to the line end,
and nothing after the last line feed is no line. -/
def lines (content : String) : List String :=
  let parts := splitChars '\n' content.toList
  let stripReturn (line : List Char) : List Char := if line.getLast? = some '\r' then line.dropLast else line
  let last := parts.getLastD []
  (parts.dropLast.map stripReturn ++ if last = [] then [] else [last]).map String.ofList

theorem splitSole (one : '\n' ∉ text) : splitChars '\n' (text ++ ['\n']) = [text,[]] := by
  induction text with
  | nil => rfl
  | cons c _ ih =>
    have other : c ≠ '\n' := fun same => one (same ▸ mem_cons_self)
    rw [cons_append,splitChars,if_neg other,ih fun mem => one (mem_cons_of_mem _ mem)]

theorem linesSole (one : '\n' ∉ text) (ends : text.getLast? ≠ some '\r') :
    lines (String.ofList (text ++ ['\n'])) = [String.ofList text] := by
  have parts : splitChars '\n' (String.ofList (text ++ ['\n'])).toList = [text,[]] := by
    rw [String.toList_ofList]
    exact splitSole one
  simp only [lines,parts]
  simp [ends]

section

variable (fromStr : String → Except String AuditEntry)

def parseLine (line : String) : Except EngineError AuditEntry :=
  match fromStr line with
  | .ok entry => .ok entry
  | .error message => .error (.codec message)

def readAll (content : String) : Except EngineError (List AuditEntry) :=
  ((lines content).filter (· ≠ "")).mapM (parseLine fromStr)

def verifyLines : String → List String → Except EngineError Unit
  | _,[] => .ok ()
  | prev,line :: rest =>
      match parseLine fromStr line with
      | .error cause => .error cause
      | .ok entry =>
          if entry.chainHash ≠
              chainLink prev entry.tsUnixMs entry.tenant entry.user entry.query entry.rowsAffected then
            .error (.codec "audit chain tampered")
          else verifyLines entry.chainHash rest

def verifyChain (content : String) : Except EngineError Unit :=
  verifyLines fromStr genesis ((lines content).filter (· ≠ ""))

end

def AuditEntry.data (entry : AuditEntry) (prev : String) : Bytes :=
  linkData prev entry.tsUnixMs entry.tenant entry.user entry.query entry.rowsAffected

def Linked : String → List AuditEntry → Prop
  | _,[] => True
  | prev,entry :: rest => entry.chainHash = hexEncode (sha256 (entry.data prev)) ∧ Linked entry.chainHash rest

def hashed : String → List AuditEntry → List Bytes
  | _,[] => []
  | prev,entry :: rest => entry.data prev :: hashed entry.chainHash rest

theorem parsedLine (read : (line :: rest).mapM (parseLine fromStr) = .ok entries) :
    ∃ entry later, parseLine fromStr line = .ok entry ∧ rest.mapM (parseLine fromStr) = .ok later ∧
      entries = entry :: later := by
  rw [mapM_cons] at read
  cases first : parseLine fromStr line with
  | error =>
    rw [first] at read
    cases read
  | ok entry =>
    cases more : rest.mapM (parseLine fromStr) with
    | error =>
      rw [first,more] at read
      cases read
    | ok later =>
      rw [first,more] at read
      exact ⟨entry,later,rfl,rfl,(Except.ok.inj read).symm⟩

theorem verifiedLinked {prev} (read : texts.mapM (parseLine fromStr) = .ok entries)
    (accepted : verifyLines fromStr prev texts = .ok ()) : Linked prev entries := by
  induction texts generalizing prev entries with
  | nil =>
    cases read
    trivial
  | cons _ _ ih =>
    obtain ⟨_,_,first,more,rfl⟩ := parsedLine read
    rw [verifyLines,first] at accepted
    simp only at accepted
    split at accepted
    · cases accepted
    · rename_i matches'
      exact ⟨not_not.mp matches',ih more accepted⟩

theorem hexDigitInjective (left : m < 16) (right : n < 16) (same : hexDigit m = hexDigit n) : m = n := by
  have all : ∀ m < 16,∀ n < 16,hexDigit m = hexDigit n → m = n := by decide
  exact all m left n right same

theorem hexInjective (same : hexEncode left = hexEncode right) : left = right := by
  have chars := String.ofList_injective same
  clear same
  induction left generalizing right with
  | nil =>
    cases right with
    | nil => rfl
    | cons => cases chars
  | cons a _ ih =>
    cases right with
    | nil => cases chars
    | cons b =>
      simp only [flatMap_cons,cons_append,nil_append,List.cons.injEq] at chars
      obtain ⟨high,low,rest⟩ := chars
      have high := hexDigitInjective (by have := a.toNat_lt; omega) (by have := b.toNat_lt; omega) high
      have low := hexDigitInjective (by omega) (by omega) low
      have byte : a = b := UInt8.toNat_inj.mp (by omega)
      rw [byte,ih rest]

theorem hexSize (bytes) : (utf8 (hexEncode bytes)).length = 2*bytes.length := by
  have digit : ∀ n < 16,(String.utf8EncodeChar (hexDigit n)).length = 1 := by decide
  rw [hexEncode,utf8OfList]
  induction bytes with
  | nil => rfl
  | cons b _ ih =>
    have high := digit (b.toNat/16) (by have := b.toNat_lt; omega)
    have low := digit (b.toNat%16) (by omega)
    simp only [flatMap_cons,cons_append,nil_append,length_append,length_cons] at ih ⊢
    omega

structure SameData (left right : AuditEntry) : Prop where
  ts : left.tsUnixMs = right.tsUnixMs
  rows : left.rowsAffected = right.rowsAffected
  hash : left.chainHash = right.chainHash
  texts : utf8 left.tenant ++ (utf8 left.user ++ utf8 left.query) =
    utf8 right.tenant ++ (utf8 right.user ++ utf8 right.query)

theorem numberRead {left right : UInt64} (same : leBytes 8 left.toNat = leBytes 8 right.toNat) : left = right := by
  have back := congrArg ofLeBytes same
  rw [ofLeBytesWritten left.toNat_lt,ofLeBytesWritten right.toNat_lt] at back
  exact UInt64.toNat_inj.mp back

/- The hashed data has the previous hash and the time in front and the row count at its
end, each of a fixed width. -/
theorem dataParts {left right : AuditEntry} (width : (utf8 prevLeft).length = (utf8 prevRight).length)
    (hash : left.chainHash = right.chainHash) (same : left.data prevLeft = right.data prevRight) :
    prevLeft = prevRight ∧ SameData left right := by
  obtain ⟨prev,rest⟩ := append_inj same width
  obtain ⟨ts,rest⟩ := append_inj rest (by simp)
  rw [← append_assoc,← append_assoc,← append_assoc,← append_assoc] at rest
  obtain ⟨texts,rows⟩ := append_inj' rest (by simp)
  refine ⟨utf8Injective prev,numberRead ts,numberRead rows,hash,?_⟩
  rw [← append_assoc,← append_assoc]
  exact texts

theorem linkedSame (widthLeft : (utf8 prevLeft).length = 64) (widthRight : (utf8 prevRight).length = 64)
    (linkedLeft : Linked prevLeft left) (linkedRight : Linked prevRight right) (sameLength : left.length = right.length)
    (filled : left ≠ []) (last : left.getLast?.map AuditEntry.chainHash = right.getLast?.map AuditEntry.chainHash)
    (apart : Set.InjOn sha256 {data | data ∈ hashed prevLeft left ∨ data ∈ hashed prevRight right}) :
    prevLeft = prevRight ∧ List.Forall₂ SameData left right := by
  induction left generalizing prevLeft prevRight right with
  | nil => exact absurd rfl filled
  | cons a left ih =>
    cases right with
    | nil => cases sameLength
    | cons b right =>
      obtain ⟨hashLeft,linkedLeft⟩ := linkedLeft
      obtain ⟨hashRight,linkedRight⟩ := linkedRight
      have length : left.length = right.length := Nat.succ.inj sameLength
      have sized : ∀ data,(utf8 (hexEncode (sha256 data))).length = 64 := fun data => by
        rw [hexSize,sha256Length]
      have tails : a.chainHash = b.chainHash ∧ List.Forall₂ SameData left right := by
        cases left with
        | nil =>
          have empty : right = [] := eq_nil_of_length_eq_zero length.symm
          subst empty
          exact ⟨Option.some.inj last,.nil⟩
        | cons =>
          obtain ⟨_,_,rfl⟩ := exists_cons_of_length_eq_add_one length.symm
          refine ih (by rw [hashLeft,sized]) (by rw [hashRight,sized]) linkedLeft linkedRight length (cons_ne_nil _ _)
            last (apart.mono ?_)
          rintro data (mem | mem)
          · exact .inl (mem_cons_of_mem _ mem)
          · exact .inr (mem_cons_of_mem _ mem)
      have digests : sha256 (a.data prevLeft) = sha256 (b.data prevRight) := by
        have texts := tails.1
        rw [hashLeft,hashRight] at texts
        exact hexInjective texts
      have same := apart (.inl mem_cons_self) (.inr mem_cons_self) digests
      obtain ⟨start,entry⟩ := dataParts (widthLeft.trans widthRight.symm) tails.1 same
      exact ⟨start,.cons entry tails.2⟩

def SameWidths (left right : AuditEntry) : Prop :=
  (utf8 left.tenant).length = (utf8 right.tenant).length ∧ (utf8 left.user).length = (utf8 right.user).length

instance (left right) : Decidable (SameWidths left right) := inferInstanceAs (Decidable (_ ∧ _))

theorem sameDataEqual (same : SameData left right) (widths : SameWidths left right) : left = right := by
  obtain ⟨ts,rows,hash,texts⟩ := same
  obtain ⟨tenant,rest⟩ := append_inj texts widths.1
  obtain ⟨user,query⟩ := append_inj rest widths.2
  cases left
  cases right
  simp only at ts rows hash tenant user query
  rw [ts,rows,hash,utf8Injective tenant,utf8Injective user,utf8Injective query]

theorem forall₂Equal (same : List.Forall₂ SameData left right)
    (widths : List.Forall₂ SameWidths left right) : left = right := by
  induction same with
  | nil => rfl
  | cons entry _ ih =>
    cases widths with
    | cons width more => rw [sameDataEqual entry width,ih more]

def soleLink : String := "59a91cec8c5501dcef078c3d51fa45edd7117967228110c95b9feb5808dea1d7"

def soleEntry (tenant user : List Char) : AuditEntry :=
  ⟨1,String.ofList tenant,String.ofList user,"SELECT 1",1,soleLink⟩

def soleLine (tenant user : List Char) : List Char :=
  "\x7b\"ts_unix_ms\":1,\"tenant\":\"".toList ++ (tenant ++ ("\",\"user\":\"".toList ++ (user ++
    ("\",\"query\":\"SELECT 1\",\"rows_affected\":1,\"chain_hash\":\"".toList ++
      (soleLink.toList ++ ['\"','\x7d'])))))

def soleFile (tenant user : List Char) : String := String.ofList (soleLine tenant user ++ ['\n'])

def soleJson (line : String) : Except String AuditEntry :=
  if line.toList = soleLine ['a'] ['b'] then .ok (soleEntry ['a'] ['b'])
  else if line.toList = soleLine ['a','b'] [] then .ok (soleEntry ['a','b'] [])
  else .error "other line"

theorem soleLines (one : '\n' ∉ soleLine tenant user) (ends : (soleLine tenant user).getLast? ≠ some '\r') :
    (lines (soleFile tenant user)).filter (· ≠ "") = [String.ofList (soleLine tenant user)] := by
  have filled : String.ofList (soleLine tenant user) ≠ "" := by
    intro empty
    have chars := String.ofList_eq_empty_iff.mp empty
    unfold soleLine at chars
    simp only [append_eq_nil_iff,cons_ne_nil,and_false] at chars
  rw [soleFile,linesSole one ends,filter_cons_of_pos (by simpa using filled),filter_nil]

theorem soleContent : (lines (soleFile ['a'] ['b'])).filter (· ≠ "") = [String.ofList (soleLine ['a'] ['b'])] ∧
    (lines (soleFile ['a','b'] [])).filter (· ≠ "") = [String.ofList (soleLine ['a','b'] [])] :=
  ⟨soleLines (by decide) (by decide),soleLines (by decide) (by decide)⟩

theorem soleParsed : parseLine soleJson (String.ofList (soleLine ['a'] ['b'])) = .ok (soleEntry ['a'] ['b']) ∧
    parseLine soleJson (String.ofList (soleLine ['a','b'] [])) = .ok (soleEntry ['a','b'] []) := by
  have differ : soleLine ['a','b'] [] ≠ soleLine ['a'] ['b'] := by
    intro same
    have after : 'b' = '\"' := (List.cons.inj (List.cons.inj (append_cancel_left same)).2).1
    exact absurd after (by decide)
  have first : soleJson (String.ofList (soleLine ['a'] ['b'])) = .ok (soleEntry ['a'] ['b']) :=
    if_pos String.toList_ofList
  have second : soleJson (String.ofList (soleLine ['a','b'] [])) = .ok (soleEntry ['a','b'] []) := by
    refine (if_neg ?_).trans (if_pos String.toList_ofList)
    rw [String.toList_ofList]
    exact differ
  exact ⟨by rw [parseLine,first],by rw [parseLine,second]⟩

theorem soleRead : readAll soleJson (soleFile ['a'] ['b']) = .ok [soleEntry ['a'] ['b']] ∧
    readAll soleJson (soleFile ['a','b'] []) = .ok [soleEntry ['a','b'] []] := by
  obtain ⟨separated,joined⟩ := soleContent
  simp only [readAll,separated,joined,mapM_cons,mapM_nil,soleParsed.1,soleParsed.2]
  exact ⟨rfl,rfl⟩

theorem soleAccepted : verifyChain soleJson (soleFile ['a'] ['b']) = .ok () ∧
    verifyChain soleJson (soleFile ['a','b'] []) = .ok () := by
  have links : soleLink = chainLink genesis 1 (String.ofList ['a']) (String.ofList ['b']) "SELECT 1" 1 ∧
      soleLink = chainLink genesis 1 (String.ofList ['a','b']) (String.ofList []) "SELECT 1" 1 := by decide +kernel
  obtain ⟨separated,joined⟩ := soleContent
  simp only [verifyChain,separated,joined,verifyLines,soleParsed.1,soleParsed.2,soleEntry,← links.1,← links.2,ne_eq,
    not_true_eq_false,if_false,and_self]

theorem soleApart : Set.InjOn sha256
    {data | data ∈ hashed genesis [soleEntry ['a'] ['b']] ∨ data ∈ hashed genesis [soleEntry ['a','b'] []]} := by
  have same : (soleEntry ['a','b'] []).data genesis = (soleEntry ['a'] ['b']).data genesis := by decide
  have only : ∀ data,data ∈ hashed genesis [soleEntry ['a'] ['b']] ∨ data ∈ hashed genesis [soleEntry ['a','b'] []] →
      data = (soleEntry ['a'] ['b']).data genesis := by
    rintro _ (mem | mem)
    · exact mem_singleton.mp mem
    · exact (mem_singleton.mp mem).trans same
  intro left memLeft right memRight _
  exact (only left memLeft).trans (only right memRight).symm

end NoeDB.AuditLog
