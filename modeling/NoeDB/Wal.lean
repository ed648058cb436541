import NoeDB.Checksum
import NoeDB.StorageTypes

/-! The bytes of a log segment (wal/entry.rs, wal/mod.rs): a header and one record after
the other, each with its length and checksum in front. Lengths are written in four
bytes, so that a record of 4 GiB or more is not read back as it was written. -/
namespace NoeDB.Wal
open ByteString StorageTypes Checksum List Nat LogEntry

def walMagic : Bytes := [78,79,69,87]
def walVersion : Nat := 1

def header : Bytes := walMagic ++ leBytes 2 walVersion

def corrupt (message : String) : Fault := .error (.corruptWal message)

def toByte : OpType → UInt8
  | .put => 0
  | .delete => 1

def fromByte (byte : UInt8) : Except Fault OpType :=
  if byte = 0 then .ok .put
  else if byte = 1 then .ok .delete
  else .error (corrupt "unknown OpType tag")

def payload (entry : LogEntry) : Bytes :=
  toByte entry.op :: (leBytes 4 entry.key.length ++ (entry.key ++ (leBytes 4 entry.value.length ++ entry.value)))

def recordBytes (entry : LogEntry) : Bytes :=
  leBytes 4 (4+(payload entry).length) ++ (leBytes 4 (crc32 (payload entry)).toNat ++ payload entry)

def encode (entry : LogEntry) : Except Fault Bytes :=
  match entry.encodeCheck with
  | .error fault => .error fault
  | .ok _ => .ok (recordBytes entry)

def readU32 (data : Bytes) (off : Nat) : Except Fault Nat :=
  if data.length < off+4 then .error (corrupt "truncated u32")
  else .ok (ofLeBytes (slice data off (off+4)))

def readLenPrefixed (data : Bytes) (off : Nat) : Except Fault (Bytes × Nat) :=
  match readU32 data off with
  | .error fault => .error fault
  | .ok len =>
      if data.length < off+4+len then .error (corrupt "truncated field")
      else .ok (slice data (off+4) (off+4+len),off+4+len)

def decodePayload (data : Bytes) : Except Fault LogEntry :=
  match data with
  | [] => .error (corrupt "empty payload")
  | tag :: _ =>
      match fromByte tag with
      | .error fault => .error fault
      | .ok op =>
          match readLenPrefixed data 1 with
          | .error fault => .error fault
          | .ok (key,off) =>
              match readLenPrefixed data off with
              | .error fault => .error fault
              | .ok (value,_) =>
                  if key = [] then .error (corrupt "empty key in WAL record")
                  else if op = .delete ∧ value ≠ [] then .error (corrupt "delete with non-empty value")
                  else .ok ⟨op,key,value⟩

def decode (data : Bytes) : Except Fault (LogEntry × Nat) :=
  if data.length < 4 then .error (corrupt "truncated record length")
  else
    let recordLen := ofLeBytes (slice data 0 4)
    if data.length < 4+recordLen then .error (corrupt "truncated record body")
    else
      let record := slice data 4 (4+recordLen)
      if record.length < 4 then .error (corrupt "missing checksum")
      else if (crc32 (record.drop 4)).toNat ≠ ofLeBytes (slice record 0 4) then .error (.error .checksumMismatch)
      else match decodePayload (record.drop 4) with
        | .error fault => .error fault
        | .ok entry => .ok (entry,4+recordLen)

/- The loop of `read_all`. A record takes at least four bytes, so that the number of
bytes is enough fuel. -/
def readRecords : Nat → Bytes → Except Fault (List LogEntry)
  | 0,_ => .ok []
  | _,[] => .ok []
  | fuel+1,data =>
      match decode data with
      | .error fault => .error fault
      | .ok (entry,n) =>
          match readRecords fuel (data.drop n) with
          | .error fault => .error fault
          | .ok rest => .ok (entry :: rest)

def unexpectedEof : Fault := .error (.io "failed to fill whole buffer")

def validateHeader (content : Bytes) : Except Fault Unit :=
  if content.length < 4 then .error unexpectedEof
  else if content.take 4 ≠ walMagic then .error (corrupt "bad WAL magic")
  else if content.length < 6 then .error unexpectedEof
  else if ofLeBytes (slice content 4 6) ≠ walVersion then .error (corrupt "unsupported WAL version")
  else .ok ()

def readAll (content : Bytes) : Except Fault (List LogEntry) :=
  match validateHeader content with
  | .error fault => .error fault
  | .ok _ => readRecords (content.drop 6).length (content.drop 6)

@[mk_iff]
structure Fits (entry : LogEntry) : Prop where
  accepted : entry.encodeCheck = .ok ()
  short : 4+(payload entry).length < 2^32

theorem acceptedIff {entry : LogEntry} : entry.encodeCheck = .ok () ↔
    entry.key ≠ [] ∧ ¬(entry.op = .delete ∧ entry.value ≠ []) := by
  unfold encodeCheck
  split
  · rename_i empty
    simp [empty]
  · rename_i named
    split
    · rename_i carries
      simp [named,carries]
    · rename_i plain
      simp [named,plain,ne_eq,not_false_eq_true,and_self]

instance (entry) : Decidable (Fits entry) := decidable_of_iff' _ (fits_iff entry)

@[simp] theorem payloadLength (entry) : (payload entry).length = entry.key.length+entry.value.length+9 := by
  simp [payload]
  omega

@[simp] theorem recordLength (entry) : (recordBytes entry).length = (payload entry).length+8 := by
  simp [recordBytes]
  omega

@[simp] theorem fromToByte (op) : fromByte (toByte op) = .ok op := by
  cases op <;> rfl

theorem readWritten (front field back) (fits : field.length < 2^32) :
    readLenPrefixed (front ++ (leBytes 4 field.length ++ (field ++ back))) front.length =
      .ok (field,front.length+4+field.length) := by
  have size : slice (front ++ (leBytes 4 field.length ++ (field ++ back))) front.length (front.length+4) =
      leBytes 4 field.length := by
    rw [sliceSkip (le_refl _),sliceHead (by omega) (by simp)]
  have value : slice (front ++ (leBytes 4 field.length ++ (field ++ back))) (front.length+4)
      (front.length+4+field.length) = field := by
    rw [sliceSkip (by omega),sliceSkip (by simp),leBytesLength,sliceHead (by omega) (by omega)]
  have short : ¬(front ++ (leBytes 4 field.length ++ (field ++ back))).length < front.length+4 := by
    simp
  have enough : ¬(front ++ (leBytes 4 field.length ++ (field ++ back))).length < front.length+4+field.length := by
    simp
    omega
  have read : ofLeBytes (leBytes 4 field.length) = field.length := ofLeBytesWritten fits
  simp only [readLenPrefixed,readU32,if_neg short,size,read,if_neg enough,value]

theorem decodePayloadWritten {entry : LogEntry} (fits : Fits entry) : decodePayload (payload entry) = .ok entry := by
  obtain ⟨accepted,short⟩ := fits
  rw [payloadLength] at short
  obtain ⟨named,plain⟩ := acceptedIff.mp accepted
  have key : readLenPrefixed (payload entry) 1 = .ok (entry.key,5+entry.key.length) := by
    have read := readWritten [toByte entry.op] entry.key (leBytes 4 entry.value.length ++ entry.value) (by omega)
    simpa [payload,Nat.add_comm,Nat.add_left_comm] using read
  have value : readLenPrefixed (payload entry) (5+entry.key.length) =
      .ok (entry.value,5+entry.key.length+4+entry.value.length) := by
    have read := readWritten (toByte entry.op :: (leBytes 4 entry.key.length ++ entry.key)) entry.value [] (by omega)
    have size : (toByte entry.op :: (leBytes 4 entry.key.length ++ entry.key)).length = 5+entry.key.length := by
      simp
      omega
    rw [size] at read
    simpa [payload] using read
  have tag : payload entry = toByte entry.op :: (payload entry).tail := rfl
  unfold decodePayload
  rw [tag]
  simp only [fromToByte]
  rw [← tag,key]
  simp [value,if_neg named,if_neg plain]

def framed (sum : UInt32) (entry : LogEntry) : Bytes :=
  leBytes 4 (4+(payload entry).length) ++ (leBytes 4 sum.toNat ++ payload entry)

theorem decodeBody {body : Bytes} (short : 4+body.length < 2^32) (sum rest) :
    decode (leBytes 4 (4+body.length) ++ ((leBytes 4 sum.toNat ++ body) ++ rest)) =
      if crc32 body = sum then
        match decodePayload body with
        | .error fault => .error fault
        | .ok entry => .ok (entry,4+(4+body.length))
      else .error (.error .checksumMismatch) := by
  generalize shape : leBytes 4 (4+body.length) ++ ((leBytes 4 sum.toNat ++ body) ++ rest) = data
  have size : slice data 0 4 = leBytes 4 (4+body.length) := by rw [← shape,sliceHead rfl (by simp)]
  have read : ofLeBytes (leBytes 4 (4+body.length)) = 4+body.length := ofLeBytesWritten short
  have total : data.length = 8+body.length+rest.length := by
    simp only [← shape,length_append,leBytesLength]
    omega
  have record : slice data 4 (4+(4+body.length)) = leBytes 4 sum.toNat ++ body := by
    rw [← shape,sliceSkip (by simp),sliceHead (by simp) (by simp)]
  have behind : (leBytes 4 sum.toNat ++ body).drop 4 = body := drop_left' (by simp)
  have front : slice (leBytes 4 sum.toNat ++ body) 0 4 = leBytes 4 sum.toNat := sliceHead rfl (by simp)
  have checked : ofLeBytes (leBytes 4 sum.toNat) = sum.toNat := ofLeBytesWritten sum.toNat_lt
  have prefixed : ¬data.length < 4 := by omega
  have complete : ¬data.length < 4+(4+body.length) := by omega
  have guarded : ¬(leBytes 4 sum.toNat ++ body).length < 4 := by simp
  simp [decode,if_neg prefixed,size,read,if_neg complete,record,behind,front,checked,    ne_eq,UInt32.toNat_inj,ite_not]

theorem decodeFramed (fits : Fits entry) (sum rest) : decode (framed sum entry ++ rest) =
      if crc32 (payload entry) = sum then .ok (entry,(framed sum entry).length) else .error (.error .checksumMismatch) := by
  have length : (framed sum entry).length = 4+(4+(payload entry).length) := by simp [framed]
  rw [length,framed,append_assoc,decodeBody fits.short]
  simp [decodePayloadWritten fits]

theorem decodeWritten (fits : Fits entry) (rest) :
    decode (recordBytes entry ++ rest) = .ok (entry,(recordBytes entry).length) := by
  have read := decodeFramed fits (crc32 (payload entry)) rest
  rwa [if_pos rfl] at read

theorem readRecordsNext (filled : data ≠ []) (fuel) : readRecords (fuel+1) data = match decode data with
      | .error fault => .error fault
      | .ok (entry,n) =>
          match readRecords fuel (data.drop n) with
          | .error fault => .error fault
          | .ok rest => .ok (entry :: rest) := by
  obtain ⟨b,_,rfl⟩ := exists_cons_of_ne_nil filled
  rfl

theorem readRecordsWritten (fits : ∀ e ∈ records, Fits e) (rest : Bytes)
    (enough : (records.flatMap recordBytes ++ rest).length ≤ fuel) :
    readRecords fuel (records.flatMap recordBytes ++ rest) =
      match readRecords (fuel-records.length) rest with
      | .error fault => .error fault
      | .ok more => .ok (records ++ more) := by
  induction records generalizing fuel with
  | nil =>
    simp only [flatMap_nil,nil_append,length_nil,Nat.sub_zero]
    cases readRecords fuel rest <;> rfl
  | cons e records ih =>
    have length := recordLength e
    simp only [flatMap_cons,append_assoc,length_append] at enough ⊢
    obtain ⟨fuel,rfl⟩ : ∃ k, fuel = k+1 := ⟨fuel-1,by omega⟩
    have later : readRecords fuel (records.flatMap recordBytes ++ rest) = _ :=
      ih (fun e mem => fits e (mem_cons_of_mem _ mem)) (by simp only [length_append]; omega)
    have first := decodeWritten (fits e mem_cons_self) (records.flatMap recordBytes ++ rest)
    have filled : recordBytes e ++ (records.flatMap recordBytes ++ rest) ≠ [] := by
      intro empty
      have none := congrArg List.length empty
      simp only [length_append,length,length_nil] at none
      omega
    simp only [readRecordsNext filled,first,drop_left',later,length_cons,Nat.add_sub_add_right]
    cases readRecords (fuel-records.length) rest <;> rfl

theorem validateWritten (content) : validateHeader (header ++ content) = .ok () := by
  have shape : header ++ content = 78 :: 79 :: 69 :: 87 :: 1 :: 0 :: content := rfl
  have long : ¬(header ++ content).length < 6 := by simp [shape]
  have begins : ¬(header ++ content).length < 4 := by omega
  simp only [validateHeader,if_neg begins,if_neg long]
  simp [shape,walMagic,walVersion,slice,ofLeBytes]

theorem readAllWritten (fits : ∀ e ∈ records, Fits e) :
    readAll (header ++ records.flatMap recordBytes) = .ok records := by
  have body : (header ++ records.flatMap recordBytes).drop 6 = records.flatMap recordBytes := drop_left' rfl
  have read : readRecords (records.flatMap recordBytes).length (records.flatMap recordBytes ++ []) = _ :=
    readRecordsWritten fits [] (by simp)
  rw [append_nil] at read
  simp only [readAll,validateWritten,body,read]
  cases (records.flatMap recordBytes).length-records.length <;> simp [readRecords]

theorem encodeOk (encoded : encode entry = .ok bytes) : entry.encodeCheck = .ok () ∧ bytes = recordBytes entry := by
  unfold encode at encoded
  split at encoded
  · cases encoded
  · rename_i accepted
    exact ⟨accepted,(Except.ok.inj encoded).symm⟩

theorem encodedBlocks {records : List LogEntry} (encoded : records.mapM encode = .ok blocks) :
    (∀ e ∈ records, e.encodeCheck = .ok ()) ∧ blocks.flatten = records.flatMap recordBytes := by
  induction records generalizing blocks with
  | nil =>
    cases encoded
    exact ⟨fun e mem => absurd mem not_mem_nil,rfl⟩
  | cons e records ih =>
    rw [mapM_cons] at encoded
    cases first : encode e with
    | error =>
      rw [first] at encoded
      cases encoded
    | ok =>
      cases later : records.mapM encode with
      | error =>
        rw [first,later] at encoded
        cases encoded
      | ok =>
        rw [first,later] at encoded
        cases encoded
        obtain ⟨accepted,rfl⟩ := encodeOk first
        obtain ⟨others,same⟩ := ih later
        exact ⟨forall_mem_cons.mpr ⟨accepted,others⟩,by rw [flatten_cons,flatMap_cons,same]⟩

theorem recordsRoundTrip (records : List LogEntry) (blocks : List Bytes) (encoded : records.mapM encode = .ok blocks)
    (short : ∀ e ∈ records, 4+(payload e).length < 2^32) :
    (∀ e ∈ records, ∀ bytes, encode e = .ok bytes → ∀ rest, decode (bytes ++ rest) = .ok (e,bytes.length)) ∧
      readAll (header ++ blocks.flatten) = .ok records := by
  obtain ⟨accepted,same⟩ := encodedBlocks encoded
  have fits : ∀ e ∈ records, Fits e := fun e mem => ⟨accepted e mem,short e mem⟩
  refine ⟨fun e mem bytes written rest => ?_,?_⟩
  · obtain ⟨-,rfl⟩ := encodeOk written
    exact decodeWritten (fits e mem) rest
  · rw [same]
    exact readAllWritten fits

theorem pairRoundTrips : [LogEntry.put [107] [118],LogEntry.delete [107]].mapM encode =
        .ok [recordBytes (.put [107] [118]),recordBytes (.delete [107])] ∧
      readAll (header ++ [recordBytes (.put [107] [118]),recordBytes (.delete [107])].flatten) =
        .ok [LogEntry.put [107] [118],LogEntry.delete [107]] :=
  ⟨rfl,(recordsRoundTrip [put [107] [118],delete [107]]
    [recordBytes (.put [107] [118]),recordBytes (.delete [107])] rfl (by decide)).2⟩

theorem damageNoticed (entry : LogEntry) (bytes : Bytes) (encoded : encode entry = .ok bytes)
    (short : 4+(payload entry).length < 2^32) (damaged : Bytes) (sized : damaged.length = (payload entry).length)
    (changed : damaged ≠ payload entry) (start : Nat)
    (window : ∀ i, ¬(start ≤ i ∧ i < start+4) → damaged[i]? = (payload entry)[i]?) (rest : Bytes) :
    decode (bytes.take 8 ++ (damaged ++ rest)) = .error (.error .checksumMismatch) := by
  obtain ⟨-,rfl⟩ := encodeOk encoded
  have fields : (recordBytes entry).take 8 = leBytes 4 (4+damaged.length) ++ leBytes 4 (crc32 (payload entry)).toNat := by
    rw [recordBytes,← append_assoc,sized,take_left' (by simp)]
  have differs : crc32 damaged ≠ crc32 (payload entry) := by
    intro same
    have split : ∀ body : Bytes, body.take start ++ ((body.drop start).take 4 ++ body.drop (start+4)) = body := fun body => by
      rw [← drop_drop,take_append_drop,take_append_drop]
    have front : damaged.take start = (payload entry).take start := by
      apply ext_getElem?
      intro i
      rw [List.getElem?_take,List.getElem?_take]
      split_ifs with below
      · exact window i (by omega)
      · rfl
    have back : damaged.drop (start+4) = (payload entry).drop (start+4) := by
      apply ext_getElem?
      intro i
      rw [List.getElem?_drop,List.getElem?_drop]
      exact window _ (by omega)
    rw [← split damaged,← split (payload entry),front,back] at same changed
    exact changed (by rw [burstChanges (by simp [sized]) (by simpa using min_le_left 4 _) same])
  rw [fields,append_assoc,← append_assoc (leBytes 4 (crc32 _).toNat),decodeBody (sized ▸ short),if_neg differs]

theorem flippedByteNoticed : decode ((recordBytes (.put [107] [118])).take 8 ++
      ((payload (.put [107] [118])).set 10 119 ++ [])) = .error (.error .checksumMismatch) :=
  damageNoticed (.put [107] [118]) _ rfl (by decide) _ (by decide) (by decide) 7 (fun i out => by
    rw [getElem?_set_ne]
    omega) []

theorem decodeTorn (fits : Fits entry) (cut : n < (recordBytes entry).length) :
    ∃ fault, decode ((recordBytes entry).take n) = .error fault := by
  have length : ((recordBytes entry).take n).length = n := length_take_of_le (le_of_lt cut)
  by_cases short : n < 4
  · exact ⟨_,if_pos (length.symm ▸ short)⟩
  · have size : slice ((recordBytes entry).take n) 0 4 = leBytes 4 (4+(payload entry).length) := by
      have whole : slice (recordBytes entry) 0 4 = leBytes 4 (4+(payload entry).length) := sliceHead rfl (by simp)
      simp only [slice,drop_zero,Nat.sub_zero,take_take] at whole ⊢
      rw [Nat.min_eq_left (not_lt.mp short)]
      exact whole
    have read : ofLeBytes (leBytes 4 (4+(payload entry).length)) = 4+(payload entry).length :=
      ofLeBytesWritten fits.short
    have incomplete : n < 4+(4+(payload entry).length) := by
      rw [recordLength] at cut
      omega
    refine ⟨corrupt "truncated record body",?_⟩
    simp only [decode,length,if_neg short,size,read,if_pos incomplete]

theorem recordsLength (records : List LogEntry) : records.length ≤ (records.flatMap recordBytes).length := by
  induction records with
  | nil => simp
  | cons =>
    simp only [flatMap_cons,length_append,length_cons,recordLength]
    omega

theorem readAllTorn {records : List LogEntry} (fits : ∀ e ∈ records, Fits e)
    (lastFits : Fits last) (some' : 0 < n) (cut : n < (recordBytes last).length) :
    ∃ fault, readAll (header ++ records.flatMap recordBytes ++ (recordBytes last).take n) = .error fault := by
  obtain ⟨fault,torn⟩ := decodeTorn lastFits cut
  have length : ((recordBytes last).take n).length = n := length_take_of_le (le_of_lt cut)
  have filled : (recordBytes last).take n ≠ [] := by
    intro empty
    rw [empty,length_nil] at length
    omega
  have records' := recordsLength records
  have total : (records.flatMap recordBytes ++ (recordBytes last).take n).length =
      (records.flatMap recordBytes).length+n := by
    rw [length_append,length]
  obtain ⟨_,fuelled⟩ : ∃ k, (records.flatMap recordBytes).length+n-records.length = k+1 :=
    ⟨_,(succ_pred (by omega)).symm⟩
  have body : (header ++ records.flatMap recordBytes ++ (recordBytes last).take n).drop 6 =
      records.flatMap recordBytes ++ (recordBytes last).take n := by
    rw [append_assoc]
    exact drop_left' rfl
  have read : readRecords _ (records.flatMap recordBytes ++ (recordBytes last).take n) = _ :=
    readRecordsWritten fits ((recordBytes last).take n) (le_of_eq total)
  refine ⟨fault,?_⟩
  rw [readAll,body,append_assoc,validateWritten]
  simp only [total,read,fuelled,readRecordsNext filled,torn]

/- A value of 2^32 zero bytes: its record is framed as that of the empty value, and the
zeros behind it are no record. -/
theorem oversizedUnread {key value} (fits : Fits (.put key [])) (long : value.length = 2^32)
    (zeros : ∀ b ∈ value, b = 0) : ∃ fault, readAll (header ++ recordBytes (.put key value)) = .error fault := by
  have wraps : ∀ n, leBytes 4 (n+2^32) = leBytes 4 n := fun n => leBytesWrap 4 n 1
  have split : payload (.put key value) = payload (.put key []) ++ value := by
    have size : leBytes 4 value.length = leBytes 4 0 := by
      rw [long]
      exact wraps 0
    simp [payload,put,size]
  have shape : recordBytes (.put key value) = framed (crc32 (payload (.put key value))) (.put key []) ++ value := by
    have size : leBytes 4 (4+(payload (.put key value)).length) = leBytes 4 (4+(payload (.put key [])).length) := by
      rw [split,length_append,long,← add_assoc]
      exact wraps _
    simp only [recordBytes,framed,size]
    rw [split]
    simp [append_assoc]
  have rest : decode value = .error (corrupt "missing checksum") := by
    have first : ofLeBytes (slice value 0 4) = 0 := ofLeBytesZeros fun b mem => zeros b (mem_of_mem_take mem)
    have enough : ¬value.length < 4 := by omega
    have none : slice value 4 4 = [] := by simp [slice]
    simp [decode,first,none,enough]
  have body : (header ++ recordBytes (.put key value)).drop 6 = recordBytes (.put key value) := drop_left' rfl
  have nonempty : value ≠ [] := fun empty => by simp [empty] at long
  have size := recordLength (.put key value)
  obtain ⟨_,fuelled⟩ : ∃ k, (recordBytes (.put key value)).length = k+2 :=
    ⟨(recordBytes (.put key value)).length-2,by omega⟩
  simp only [readAll,validateWritten,body,fuelled]
  rw [readRecordsNext (fun empty => by simp [empty] at fuelled),shape,decodeFramed fits]
  split
  · rename_i fault failed
    exact ⟨fault,rfl⟩
  · rename_i entry n ok
    split at ok
    · cases ok
      rw [drop_left' rfl,readRecordsNext nonempty,rest]
      exact ⟨_,rfl⟩
    · cases ok

end NoeDB.Wal
