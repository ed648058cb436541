import NoeDB.SstDamage

/-! A table file reads back as the table it was written from: the records of the table
split into blocks, an index entry for each block, and the filter over all keys. -/
namespace NoeDB.SstRoundTrip
open ByteString OrderedTable StorageTypes StorageTables Bloom Loops SstFile SstDamage List SstRangeIter BloomFilter SstReader Except Prod Writing

def blockBytes (records : List Record) : Bytes := records.flatMap fun r => encodeRecord r.1 r.2

def firstKey : List Record → Bytes
  | [] => []
  | r :: _ => r.1

def Sound (block : List Record) : Prop :=
  block ≠ [] ∧ (block.length = 1 ∨ (blockBytes block).length ≤ blockSize)

def entriesFrom : Nat → List (List Record) → List IndexEntry
  | _,[] => []
  | off,b :: rest => ⟨firstKey b,off⟩ :: entriesFrom (off+8+(blockBytes b).length) rest

@[simp] theorem recordLength (key value) : (encodeRecord key value).length = 6+key.length+value.length := by
  simp [encodeRecord]
  omega

@[simp] theorem blockBytesAppend (first second) :
    blockBytes (first ++ second) = blockBytes first ++ blockBytes second := by
  simp [blockBytes]

theorem blockBytesCons (r rest) : blockBytes (r :: rest) = encodeRecord r.1 r.2 ++ blockBytes rest := rfl

theorem blockLength (records) : (blockBytes records).length = 6*records.length+totalBytes records := by
  induction records with
  | nil => rfl
  | cons _ _ ih =>
    rw [blockBytesCons,length_append,ih,recordLength]
    simp only [totalBytes,entryBytes,map_cons,sum_cons,length_cons]
    omega

theorem blockNonempty : blockBytes records = [] ↔ records = [] := by
  rw [← length_eq_zero_iff,blockLength]
  constructor
  · intro _
    exact length_eq_zero_iff.mp (by omega)
  · rintro rfl
    rfl

section
variable (crc32c : Bytes → UInt32)

def wires (blocks : List (List Record)) : Bytes := blocks.flatMap fun b => encodeBlock crc32c (blockBytes b)

def fileOf (blocks : List (List Record)) (bloom : BloomFilter) : Bytes :=
  sstHeader ++ (wires crc32c blocks ++ (bloom.encode ++ (indexBytes (entriesFrom headerLen blocks) ++ footerBytes
    ⟨headerLen+(wires crc32c blocks).length+bloom.encode.length,blocks.length,headerLen+(wires crc32c blocks).length⟩)))

structure Filled (w : Writing) (closed : List (List Record)) (last : List Record) : Prop where
  sound : ∀ b ∈ closed, Sound b
  lastSound : last ≠ [] → Sound last
  file : w.writer.file = sstHeader ++ wires crc32c closed
  offset : w.writer.offset = headerLen+(wires crc32c closed).length
  block : w.block = blockBytes last
  index : w.index = entriesFrom headerLen (closed ++ if last = [] then [] else [last])

variable {crc32c}

@[simp] theorem encodeBlockLength (payload) : (encodeBlock crc32c payload).length = 8+payload.length := by
  simp [encodeBlock]
  omega

@[simp] theorem wiresAppend (first second) :
    wires crc32c (first ++ second) = wires crc32c first ++ wires crc32c second := by
  simp [wires]

theorem wiresCons (b rest) : wires crc32c (b :: rest) = encodeBlock crc32c (blockBytes b) ++ wires crc32c rest := rfl

theorem wiresLength (blocks) : (wires crc32c blocks).length = 8*blocks.length+(blockBytes blocks.flatten).length := by
  induction blocks with
  | nil => rfl
  | cons _ _ ih =>
    rw [wiresCons,length_append,ih,encodeBlockLength,flatten_cons,blockBytesAppend,length_append, length_cons]
    omega

@[simp] theorem entriesLength (off blocks) : (entriesFrom off blocks).length = blocks.length := by
  induction blocks generalizing off with
  | nil => rfl
  | cons _ _ ih => simp [entriesFrom,ih]

variable (crc32c) in
theorem entriesAppend (off first second) : entriesFrom off (first ++ second) =
    entriesFrom off first ++ entriesFrom (off+(wires crc32c first).length) second := by
  induction first generalizing off with
  | nil => rfl
  | cons b rest ih =>
    have offset : off+8+(blockBytes b).length+(wires crc32c rest).length = off+(wires crc32c (b :: rest)).length := by
      rw [wiresCons,length_append,encodeBlockLength]
      omega
    rw [cons_append,entriesFrom,ih,offset]
    rfl

theorem filledPending (filled : Filled crc32c w closed last) (some' : last ≠ []) :
    w.block ≠ [] ∧ (∀ b ∈ closed ++ [last], Sound b) ∧ w.index = entriesFrom headerLen (closed ++ [last]) ∧
      w.writer.writeBlock crc32c w.block =
        ⟨sstHeader ++ wires crc32c (closed ++ [last]),headerLen+(wires crc32c (closed ++ [last])).length⟩ := by
  refine ⟨?_,?_,by rw [filled.index,if_neg some'],?_⟩
  · rw [filled.block]
    exact fun none => some' (blockNonempty.mp none)
  · intro b mem
    rcases mem_append.mp mem with old | new
    · exact filled.sound b old
    · exact mem_singleton.mp new ▸ filled.lastSound some'
  · have wire : wires crc32c [last] = encodeBlock crc32c (blockBytes last) := by simp [wires]
    rw [SstWriter.writeBlock,filled.block,filled.file,filled.offset]
    simp [wire,Nat.add_assoc]

theorem filledAdd (filled : Filled crc32c w closed last) (r) : ∃ closed' last',
      closed'.flatten ++ last' = closed.flatten ++ last ++ [r] ∧ Filled crc32c (w.add crc32c r) closed' last' := by
  have record : encodeRecord r.1 r.2 = blockBytes [r] := by simp [blockBytes]
  have single : Sound [r] := ⟨by simp,.inl rfl⟩
  have added := fun blocks => entriesAppend crc32c headerLen blocks [[r]]
  by_cases empty : last = []
  · subst empty
    have blank : w.block = [] := filled.block
    refine ⟨closed,[r],by simp,?_⟩
    simp only [add,blank,ne_eq,not_true_eq_false,false_and,if_false,if_true,nil_append]
    refine ⟨filled.sound,fun _ => single,filled.file,filled.offset,record,?_⟩
    rw [filled.index,filled.offset]
    simp [added,entriesFrom,firstKey]
  · obtain ⟨begun,sound,index,wrote⟩ := filledPending filled empty
    by_cases full : blockSize < w.block.length+(encodeRecord r.1 r.2).length
    · refine ⟨closed ++ [last],[r],by simp,?_⟩
      simp only [add,begun,full,ne_eq,not_false_eq_true,and_self,if_true,if_false,wrote]
      refine ⟨sound,fun _ => single,rfl,rfl,record,?_⟩
      simp only [index,cons_ne_nil,if_false,added]
      rfl
    · refine ⟨closed,last ++ [r],by simp,?_⟩
      simp only [add,begun,full,ne_eq,not_false_eq_true,and_false,if_false]
      refine ⟨filled.sound,fun _ => ⟨by simp,.inr ?_⟩,filled.file,filled.offset,?_,?_⟩
      · rw [blockBytesAppend,length_append,← filled.block,← record]
        omega
      · rw [blockBytesAppend,filled.block,record]
      · obtain ⟨_,_,rfl⟩ := exists_cons_of_ne_nil empty
        rw [index]
        simp [entriesAppend crc32c,entriesFrom,firstKey]

theorem filledAll (filled : Filled crc32c w closed last) (records) : ∃ closed' last',
      closed'.flatten ++ last' = closed.flatten ++ last ++ records ∧
        Filled crc32c (records.foldl (add crc32c) w) closed' last' := by
  induction records generalizing w closed last with
  | nil => exact ⟨closed,last,by simp,filled⟩
  | cons r _ ih =>
    obtain ⟨_,_,same,one⟩ := filledAdd filled r
    obtain ⟨closed₂,last₂,all,done⟩ := ih one
    exact ⟨closed₂,last₂,by rw [all,same]; simp,done⟩

theorem filledClosed
    (filled : Filled crc32c w closed last) : ∃ blocks, blocks.flatten = closed.flatten ++ last ∧ (∀ b ∈ blocks, Sound b) ∧
      w.index = entriesFrom headerLen blocks ∧ (if w.block = [] then w.writer else w.writer.writeBlock crc32c w.block) =
        ⟨sstHeader ++ wires crc32c blocks,headerLen+(wires crc32c blocks).length⟩ := by
  by_cases empty : last = []
  · subst empty
    refine ⟨closed,by simp,filled.sound,by simpa using filled.index,?_⟩
    have blank : w.block = [] := filled.block
    rw [if_pos blank,← filled.file,← filled.offset]
  · obtain ⟨begun,sound,index,wrote⟩ := filledPending filled empty
    exact ⟨closed ++ [last],by simp,sound,index,(if_neg begun).trans wrote⟩

theorem writtenFile (m k : UInt32) (table) : ∃ blocks, blocks.flatten = table.iter ∧ (∀ b ∈ blocks, Sound b) ∧
    writeFromMemtable crc32c m k table = fileOf crc32c blocks (build m k (table.iter.map fst)) := by
  have start : Filled crc32c ⟨⟨sstHeader,headerLen⟩,[],[]⟩ [] [] :=
    ⟨by simp,fun some' => absurd rfl some',by simp [wires],by simp [wires],rfl,rfl⟩
  obtain ⟨_,_,same,filled⟩ := filledAll start table.iter
  obtain ⟨blocks,flat,sound,index,writer⟩ := filledClosed filled
  refine ⟨blocks,flat.trans (by simpa using same),sound,?_⟩
  simp [writeFromMemtable,index,writer,entriesLength,fileOf,append_assoc]

section
variable {blocks : List (List Record)} {bloom : BloomFilter}

theorem readExactAt {content} (enough : pos+n ≤ content.length) (read : slice content pos (pos+n) = part) :
    readExact content pos n = .ok (part,pos+n) := by
  rw [readExact,if_neg (by omega),read]

theorem readIndexWritten {entries} (short : ∀ e ∈ entries, e.firstKey.length < 2^16)
    (reach : ∀ e ∈ entries, e.offset < 2^64) (front back) :
    readIndex (front ++ (indexBytes entries ++ back)) entries.length front.length = .ok entries := by
  induction entries generalizing front with
  | nil => rfl
  | cons e rest ih =>
    obtain ⟨keyFits,keysFit⟩ := forall_mem_cons.mp short
    obtain ⟨offsetFits,offsetsFit⟩ := forall_mem_cons.mp reach
    let size := leBytes 2 e.firstKey.length
    let offset := leBytes 8 e.offset
    let content := front ++ (size ++ (e.firstKey ++ (offset ++ (indexBytes rest ++ back))))
    have shape : front ++ (indexBytes (e :: rest) ++ back) = content := by
      simp [indexBytes,content,size,offset]
    have long : front.length+2+e.firstKey.length+8 ≤ content.length := by
      simp [content,size,offset]
      omega
    have first : readExact content front.length 2 = .ok (size,front.length+2) := by
      refine readExactAt (by omega) ?_
      simp (disch := (try simp only [leBytesLength]); omega) only [content,size,sliceSkip,sliceHead]
    have second : readExact content (front.length+2) e.firstKey.length =
        .ok (e.firstKey,front.length+2+e.firstKey.length) := by
      refine readExactAt (by omega) ?_
      simp (disch := (try simp only [leBytesLength]); omega) only [content,size,sliceSkip,sliceHead]
    have third : readExact content (front.length+2+e.firstKey.length) 8 =
        .ok (offset,front.length+2+e.firstKey.length+8) := by
      refine readExactAt (by omega) ?_
      simp (disch := (try simp only [leBytesLength]); omega) only [content,size,offset,sliceSkip,sliceHead]
    have later := ih keysFit offsetsFit (front ++ (size ++ (e.firstKey ++ offset)))
    have moved : (front ++ (size ++ (e.firstKey ++ offset))).length = front.length+2+e.firstKey.length+8 := by
      simp [size,offset]
      omega
    rw [moved] at later
    simp only [append_assoc] at later
    have keyRead : ofLeBytes size = e.firstKey.length := ofLeBytesWritten keyFits
    have offsetRead : ofLeBytes offset = e.offset := ofLeBytesWritten offsetFits
    rw [shape]
    simp only [length_cons,readIndex,first,second,third,keyRead,offsetRead,later,content,bind,Except.bind,pure,Except.pure]

theorem readFooterWritten (index : footer.indexOffset < 2^64) (count : footer.indexCount < 2^32)
    (filter : footer.bloomOffset < 2^64) (long : headerLen ≤ front.length) :
    readFooter (front ++ footerBytes footer) = .ok footer := by
  have size : (footerBytes footer).length = footerLen := by simp [footerBytes,sstMagic,footerLen]
  have enough : ¬(front ++ footerBytes footer).length < headerLen+footerLen := by
    rw [length_append,size]
    omega
  have tail : (front ++ footerBytes footer).drop ((front ++ footerBytes footer).length-footerLen) = footerBytes footer := by
    refine drop_left' ?_
    rw [length_append,size]
    omega
  have magic : slice (footerBytes footer) 24 28 = sstMagic := by
    simp [footerBytes,slice,sstMagic,drop_append,drop_eq_nil_of_le]
  have indexOffset : slice (footerBytes footer) 0 8 = leBytes 8 footer.indexOffset := by simp [footerBytes,slice]
  have indexCount : slice (footerBytes footer) 8 12 = leBytes 4 footer.indexCount := by simp [footerBytes,slice]
  have bloomOffset : slice (footerBytes footer) 12 20 = leBytes 8 footer.bloomOffset := by
    simp [footerBytes,slice,drop_append,drop_eq_nil_of_le]
  have index' : ofLeBytes (leBytes 8 footer.indexOffset) = footer.indexOffset := ofLeBytesWritten index
  have count' : ofLeBytes (leBytes 4 footer.indexCount) = footer.indexCount := ofLeBytesWritten count
  have filter' : ofLeBytes (leBytes 8 footer.bloomOffset) = footer.bloomOffset := ofLeBytesWritten filter
  simp only [readFooter,if_neg enough,tail,magic,indexOffset,indexCount,bloomOffset,index',count',filter',ne_eq,
    not_true_eq_false,if_false]

structure Addressable (crc32c : Bytes → UInt32) (blocks : List (List Record)) (bloom : BloomFilter) : Prop where
  short : ∀ b ∈ blocks, (firstKey b).length < 2^16
  count : blocks.length < 2^32
  reach : headerLen+(wires crc32c blocks).length+bloom.encode.length < 2^63
  few : bloom.k < 256

variable (crc32c) in
theorem entriesMem {off} (mem : e ∈ entriesFrom off blocks) :
    (∃ b ∈ blocks, e.firstKey = firstKey b) ∧ e.offset ≤ off+(wires crc32c blocks).length := by
  induction blocks generalizing off with
  | nil => cases mem
  | cons b _ ih =>
    rcases mem_cons.mp mem with rfl | later
    · exact ⟨⟨b,mem_cons_self,rfl⟩,by simp⟩
    · obtain ⟨⟨c,there,same⟩,_⟩ := ih later
      refine ⟨⟨c,mem_cons_of_mem _ there,same⟩,?_⟩
      rw [wiresCons,length_append,encodeBlockLength]
      omega

def readerOf (crc32c : Bytes → UInt32) (blocks : List (List Record)) (bloom : BloomFilter) : SstReader :=
  ⟨entriesFrom headerLen blocks,bloom,fileOf crc32c blocks bloom,true⟩

theorem openWritten (fits : Addressable crc32c blocks bloom) :
    openSst (fileOf crc32c blocks bloom) = .ok (readerOf crc32c blocks bloom) := by
  have reach := fits.reach
  let footer : Footer :=
    ⟨headerLen+(wires crc32c blocks).length+bloom.encode.length,blocks.length,headerLen+(wires crc32c blocks).length⟩
  let content := fileOf crc32c blocks bloom
  have headerSize : sstHeader.length = headerLen := rfl
  have headed : headerLen ≤ content.length := by simp [content,fileOf,headerSize]
  have magic : readExact content 0 4 = .ok (sstMagic,4) := readExactAt (le_trans (by decide) headed) rfl
  have version : readExact content 4 2 = .ok (leBytes 2 sstVersionV3,6) :=
    readExactAt (le_trans (by decide) headed) rfl
  have number : ofLeBytes (leBytes 2 sstVersionV3) = sstVersionV3 := ofLeBytesWritten (by decide)
  have tail : readFooter content = .ok footer := by
    have split : content = (sstHeader ++ (wires crc32c blocks ++ (bloom.encode ++
        indexBytes (entriesFrom headerLen blocks)))) ++ footerBytes footer := by
      simp [content,fileOf,footer]
    rw [split]
    refine readFooterWritten ?_ fits.count ?_ (by simp [headerSize])
    all_goals
      simp only [footer]
      omega
  have index : readIndex content blocks.length (headerLen+(wires crc32c blocks).length+bloom.encode.length) =
      .ok (entriesFrom headerLen blocks) := by
    have read := @readIndexWritten (entriesFrom headerLen blocks) (fun e mem => by
        obtain ⟨⟨b,there,same⟩,-⟩ := entriesMem crc32c mem
        rw [same]
        exact fits.short b there)
      (fun e mem => by
        have bound := (entriesMem crc32c mem).2
        omega)
      (sstHeader ++ (wires crc32c blocks ++ bloom.encode)) (footerBytes footer)
    have position : (sstHeader ++ (wires crc32c blocks ++ bloom.encode)).length =
        headerLen+(wires crc32c blocks).length+bloom.encode.length := by
      simp only [length_append,headerSize]
      omega
    rw [entriesLength,position] at read
    simpa [content,fileOf,footer] using read
  have filter : readBloom content footer = .ok bloom := by
    have size : footer.indexOffset-footer.bloomOffset = bloom.encode.length := by
      simp only [footer]
      omega
    have ordered : ¬footer.indexOffset < footer.bloomOffset := by
      simp only [footer]
      omega
    have read : slice content footer.bloomOffset (footer.bloomOffset+bloom.encode.length) = bloom.encode := by
      simp (disch := (try simp only [headerSize]); omega) only [content,fileOf,footer,sliceSkip,sliceHead]
    have enough : footer.bloomOffset+bloom.encode.length ≤ content.length := by
      simp only [content,fileOf,footer,length_append,headerSize]
      omega
    have sought : seek footer.bloomOffset = .ok () := if_pos (by simp only [footer]; omega)
    simp only [readBloom,sought,if_neg ordered,size,readExactAt enough read,bind,Except.bind]
    exact decodeEncode fits.few
  have sought : seek footer.indexOffset = .ok () := if_pos reach
  show openSst content = _
  simp only [openSst,readHead,magic,version,number,tail,sought,index,filter,footer,bind,Except.bind,pure,Except.pure,
    ne_eq,not_true_eq_false,if_false,and_false]
  rfl

end

section
variable {front back : List (List Record)} {b : List Record} {bloom : BloomFilter}

theorem decodeBlockWritten (fits : payload.length < 2^32) (before after) :
    decodeBlockAt crc32c (before ++ (encodeBlock crc32c payload ++ after)) before.length true = .ok payload := by
  let size := leBytes 4 payload.length
  let sum := leBytes 4 (crc32c payload).toNat
  let data := before ++ (size ++ (sum ++ (payload ++ after)))
  have shape : before ++ (encodeBlock crc32c payload ++ after) = data := by
    simp [encodeBlock,data,size,sum]
  have total : data.length = before.length+8+payload.length+after.length := by
    simp [data,size,sum]
    omega
  obtain ⟨sized,summed,body⟩ : slice data before.length (before.length+4) = size ∧
      slice data (before.length+4) (before.length+8) = sum ∧
      slice data (before.length+8) (before.length+8+payload.length) = payload := by
    refine ⟨?_,?_,?_⟩ <;>
      simp (disch := (try simp only [leBytesLength]); omega) only [data,size,sum,sliceSkip,sliceHead]
  have len : ofLeBytes size = payload.length := ofLeBytesWritten fits
  have checked : ofLeBytes sum = (crc32c payload).toNat := ofLeBytesWritten (crc32c payload).toNat_lt
  have headed : ¬data.length < before.length+8 := by omega
  have whole : ¬data.length < before.length+8+payload.length := by omega
  rw [shape]
  simp only [decodeBlockAt,if_true,if_neg headed,sized,len,if_neg whole,body,summed,checked,ne_eq,not_true_eq_false,
    and_false,if_false]

theorem indexAt : (readerOf crc32c (front ++ b :: back) bloom).index[front.length]? =
    some ⟨firstKey b,headerLen+(wires crc32c front).length⟩ := by
  simp only [readerOf,entriesAppend crc32c]
  simp [entriesFrom]

theorem readBlockAt (fits : (blockBytes b).length < 2^32) :
    (readerOf crc32c (front ++ b :: back) bloom).readBlock crc32c (headerLen+(wires crc32c front).length) =
      .ok (blockBytes b) := by
  have offset : headerLen+(wires crc32c front).length = (sstHeader ++ wires crc32c front).length := by
    rw [length_append]
    rfl
  simp only [readBlock,readerOf,fileOf,wiresAppend,wiresCons,append_assoc]
  rw [offset,← append_assoc sstHeader]
  exact decodeBlockWritten fits _ _

theorem parseWritten (keyFits : r.1.length < 2^16) (valueFits : r.2.length < 2^32)
    (done rest) : parseAt (blockBytes (done ++ r :: rest)) (blockBytes done).length =
      .record r.1 r.2 (blockBytes (done ++ [r])).length := by
  obtain ⟨key,value⟩ := r
  let before := blockBytes done
  let after := blockBytes rest
  let keySize := leBytes 2 key.length
  let valueSize := leBytes 4 value.length
  let block := before ++ (keySize ++ (valueSize ++ (key ++ (value ++ after))))
  have shape : blockBytes (done ++ (key,value) :: rest) = block := by
    simp [blockBytesCons,encodeRecord,block,before,after,keySize,valueSize]
  have total : block.length = before.length+6+key.length+value.length+after.length := by
    simp [block,keySize,valueSize]
    omega
  obtain ⟨keySized,valueSized,keyRead,valueRead⟩ : slice block before.length (before.length+2) = keySize ∧
      slice block (before.length+2) (before.length+6) = valueSize ∧
      slice block (before.length+6) (before.length+6+key.length) = key ∧
      slice block (before.length+6+key.length) (before.length+6+key.length+value.length) = value := by
    refine ⟨?_,?_,?_,?_⟩ <;>
      simp (disch := (try simp only [leBytesLength]); omega) only [block,keySize,valueSize,sliceSkip,sliceHead]
  have keyLen : ofLeBytes keySize = key.length := ofLeBytesWritten keyFits
  have valueLen : ofLeBytes valueSize = value.length := ofLeBytesWritten valueFits
  have headed : ¬block.length < before.length+6 := by omega
  have whole : ¬block.length < before.length+6+key.length+value.length := by omega
  have next : (blockBytes (done ++ [(key,value)])).length = before.length+6+key.length+value.length := by
    simp [before,blockBytes]
    omega
  rw [shape,next]
  simp only [parseAt,before,if_neg headed,keySized,valueSized,keyLen,valueLen,if_neg whole,keyRead,valueRead]

theorem parseEnd (block) : parseAt block block.length = .short := if_pos (by omega)

def RecordFits (r : Record) : Prop := r.1.length < 2^16 ∧ 6+r.1.length+r.2.length < 2^32

instance (r) : Decidable (RecordFits r) := inferInstanceAs (Decidable (_ ∧ _))

theorem scanFromWritten {done rest} (fits : ∀ r ∈ rest, RecordFits r) (key) {fuel} (enough : rest.length < fuel) :
    scanFrom (blockBytes (done ++ rest)) key fuel (blockBytes done).length = findIn key rest := by
  induction rest generalizing done fuel with
  | nil =>
    obtain ⟨fuel,rfl⟩ : ∃ n, fuel = n+1 := ⟨fuel-1,by omega⟩
    rw [append_nil]
    simp [scanFrom,parseEnd,findIn]
  | cons r rest ih =>
    obtain ⟨fuel,rfl⟩ : ∃ n, fuel = n+1 := ⟨fuel-1,by omega⟩
    obtain ⟨⟨keyFits,_⟩,more⟩ := forall_mem_cons.mp fits
    have parsed := parseWritten keyFits (show r.2.length < 2^32 by omega) done rest
    have later := @ih (done ++ [r]) more fuel (by simp only [length_cons] at enough; omega)
    rw [append_assoc,singleton_append] at later
    simp only [scanFrom,parsed,later,findIn]
    congr

theorem scanBlockWritten (fits : ∀ r ∈ records, RecordFits r) (key) :
    scanBlock (blockBytes records) key = findIn key records := by
  refine @scanFromWritten [] records fits key _ ?_
  rw [blockLength]
  omega

end

section
variable {blocks : List (List Record)} {bloom : BloomFilter}

theorem firstKeyLe {b} (asc : Ascending b) {r} (mem : r ∈ b) : firstKey b ≤ r.1 := by
  cases b with
  | nil => cases mem
  | cons =>
    rcases mem_cons.mp mem with rfl | later
    · exact le_refl _
    · exact le_of_lt ((pairwise_cons.mp asc).1 r later)

theorem firstKeyMem (some' : b ≠ []) : ∃ r ∈ b, r.1 = firstKey b := by
  cases b with
  | nil => exact absurd rfl some'
  | cons head => exact ⟨head,mem_cons_self,rfl⟩

structure Ordered (blocks : List (List Record)) : Prop where
  filled : ∀ b ∈ blocks, b ≠ []
  ascending : Ascending blocks.flatten

theorem blockAscending (ordered : Ordered blocks) (mem : b ∈ blocks) : Ascending b :=
  (pairwise_flatten.mp ordered.ascending).1 b mem

theorem firstKeysAscending (ordered : Ordered blocks) : blocks.Pairwise fun a b => firstKey a < firstKey b := by
  refine (pairwise_flatten.mp ordered.ascending).2.imp_of_mem fun {a b} left right less => ?_
  obtain ⟨r,mem,first⟩ := firstKeyMem (ordered.filled a left)
  obtain ⟨q,mem',second⟩ := firstKeyMem (ordered.filled b right)
  exact first ▸ second ▸ less r mem q mem'

theorem frontBelow (ordered : Ordered blocks) (split : blocks = front ++ b :: back) (reached : firstKey b ≤ key) :
    ∀ r ∈ front.flatten, r.1 < key := by
  intro r mem
  have asc := ordered.ascending
  rw [split,flatten_append,flatten_cons] at asc
  obtain ⟨q,held,first⟩ := firstKeyMem (ordered.filled b (split ▸ mem_append_right _ mem_cons_self))
  have less := (pairwise_append.mp asc).2.2 r mem q (mem_append_left _ held)
  exact lt_of_lt_of_le (first ▸ less) reached

inductive Located (blocks : List (List Record)) (key : Bytes) : Option Nat → Prop where
  | below (all : ∀ b ∈ blocks, key < firstKey b) : Located blocks key none
  | block {front b back} (split : blocks = front ++ b :: back) (reached : firstKey b ≤ key)
      (later : ∀ c ∈ back, key < firstKey c) : Located blocks key (some front.length)

theorem entryKeys (off) (i : Nat) :
    (entriesFrom off blocks)[i]?.map IndexEntry.firstKey = blocks[i]?.map firstKey := by
  induction blocks generalizing off i with
  | nil => rfl
  | cons _ _ ih =>
    cases i with
    | zero => rfl
    | succ i => simpa [entriesFrom] using ih _ i

def reaches (blocks : List (List Record)) (key : Bytes) (i : Nat) : Bool :=
  match (entriesFrom headerLen blocks)[i]? with
  | some e => e.firstKey ≤ key
  | none => false

theorem reachesIff (found : blocks[i]? = some b) : reaches blocks key i = true ↔ firstKey b ≤ key := by
  have keys := @entryKeys blocks headerLen i
  rw [found] at keys
  obtain ⟨e,entry,same⟩ := Option.map_eq_some_iff.mp keys
  simp [reaches,entry,same]

theorem reachesEarlier (ordered : Ordered blocks) (le : i ≤ j) (bound : j < blocks.length)
    (holds : reaches blocks key j = true) : reaches blocks key i = true := by
  rcases Nat.lt_or_eq_of_le le with less | rfl
  · have reached := (reachesIff (List.getElem?_eq_getElem bound)).mp holds
    have before := pairwise_iff_getElem.mp (firstKeysAscending ordered) i j (by omega) bound less
    exact (reachesIff (List.getElem?_eq_getElem (by omega))).mpr (le_trans (le_of_lt before) reached)
  · exact holds

theorem findBlockShape (key) : (readerOf crc32c blocks bloom).findBlock key =
    if partitionPoint (reaches blocks key) blocks.length = 0 then none
    else some (partitionPoint (reaches blocks key) blocks.length-1) := by
  unfold findBlock
  by_cases empty : blocks = []
  · subst empty
    rfl
  · have filled : entriesFrom headerLen blocks ≠ [] := fun none => empty (by
      simpa using congrArg List.length none)
    rw [readerOf,if_neg filled,entriesLength]
    exact rfl

theorem findBlockLocates (ordered : Ordered blocks) (key) :
    Located blocks key ((readerOf crc32c blocks bloom).findBlock key) := by
  have closed : ∀ i j, i ≤ j → j < blocks.length → reaches blocks key j = true → reaches blocks key i = true :=
    fun i j => reachesEarlier ordered
  obtain ⟨bound,below,above⟩ := partitionParts closed
  rw [findBlockShape]
  generalize partitionPoint (reaches blocks key) blocks.length = point at bound below above
  have past : ∀ {i b}, point ≤ i → blocks[i]? = some b → key < firstKey b := by
    intro i b large found
    have fails := above i large (List.getElem?_eq_some_iff.mp found).1
    exact not_le.mp fun reached => by simp [(reachesIff found).mpr reached] at fails
  split
  · rename_i zero
    refine .below fun b mem => ?_
    obtain ⟨i,found⟩ := mem_iff_getElem?.mp mem
    exact past (by omega) found
  · rename_i positive
    have inside : point-1 < blocks.length := by omega
    have split : blocks = blocks.take (point-1) ++ blocks[point-1] :: blocks.drop (point-1+1) := by
      rw [← drop_eq_getElem_cons inside,take_append_drop]
    have length : (blocks.take (point-1)).length = point-1 := length_take_of_le (by omega)
    have located := Located.block split ((reachesIff (List.getElem?_eq_getElem inside)).mp (below _ (by omega))) ?_
    · rwa [length] at located
    · intro c mem
      obtain ⟨i,found⟩ := mem_iff_getElem?.mp mem
      rw [List.getElem?_drop] at found
      exact past (by omega) found

end

structure Fitting (blocks : List (List Record)) : Prop where
  records : ∀ b ∈ blocks, ∀ r ∈ b, RecordFits r
  sizes : ∀ b ∈ blocks, (blockBytes b).length < 2^32

theorem parsesNext {done} (fits : Fitting blocks) (mem : b ∈ blocks) (parts : b = done ++ r :: rest) :
    parseAt (blockBytes b) (blockBytes done).length = .record r.1 r.2 (blockBytes (done ++ [r])).length := by
  obtain ⟨keyFits,_⟩ := fits.records b mem r (by simp [parts])
  rw [parts]
  exact parseWritten keyFits (by omega) done rest

section
variable {blocks : List (List Record)} (ordered : Ordered blocks) (fits : Fitting blocks)
include ordered fits

theorem getWritten {m} (positive : m ≠ 0) (k : UInt32) (key) :
    (readerOf crc32c blocks (build m k (blocks.flatten.map fst))).get crc32c key =
      .ok (findIn key blocks.flatten) := by
  obtain ⟨answer,answered,own⟩ := buildAnswers positive k (blocks.flatten.map fst) key
  have located := @findBlockLocates crc32c blocks (.build m k (blocks.flatten.map fst)) ordered key
  have bloom : ∀ b, (readerOf crc32c blocks b).bloom = b := fun _ => rfl
  unfold SstReader.get
  rw [bloom,answered]
  cases answer with
  | false =>
    have absent : findIn key blocks.flatten = none := findInAbsent fun r mem same => by
      cases own (mem_map.mpr ⟨r,mem,same⟩)
    rw [absent]
  | true =>
    generalize (readerOf crc32c blocks (.build m k (blocks.flatten.map fst))).findBlock key = found at located ⊢
    cases located with
    | below all =>
      have absent : findIn key blocks.flatten = none := findInAbsent fun r mem same => by
        obtain ⟨b,inside,held⟩ := mem_flatten.mp mem
        have first := firstKeyLe (blockAscending ordered inside) held
        exact absurd (same ▸ first) (not_le.mpr (all b inside))
      rw [absent]
    | @block front b back split reached later =>
      have before : findIn key front.flatten = none :=
        findInAbsent fun r mem same => ne_of_lt (frontBelow ordered split reached r mem) same
      subst split
      have inside : b ∈ front ++ b :: back := mem_append_right _ mem_cons_self
      simp only [indexAt,readBlockAt (fits.sizes b inside),scanBlockWritten (fits.records b inside)]
      have after : findIn key back.flatten = none := findInAbsent fun r mem same => by
        obtain ⟨c,there,held⟩ := mem_flatten.mp mem
        have first := firstKeyLe (blockAscending ordered (mem_append_right _ (mem_cons_of_mem _ there))) held
        exact absurd (same ▸ first) (not_le.mpr (later c there))
      rw [flatten_append,flatten_cons,findInAppend,findInAppend,before,after]
      simp

end

section
variable {bloom : BloomFilter} {blocks : List (List Record)} (fits : Fitting blocks)
include fits

theorem iterLoads {front back b} (split : blocks = front ++ b :: back) (block off) :
    SstIter.loadBlock crc32c (readerOf crc32c blocks bloom) ⟨front.length,block,off⟩ =
      .ok ⟨front.length,blockBytes b,0⟩ := by
  subst split
  have inside : b ∈ front ++ b :: back := mem_append_right _ mem_cons_self
  simp [SstIter.loadBlock,indexAt,readBlockAt (fits.sizes b inside)]

theorem iterBlock {front back b} (split : blocks = front ++ b :: back) {tail done rest} (parts : b = done ++ rest)
    (later : Runs (SstIter.pass crc32c (readerOf crc32c blocks bloom))
      ⟨front.length,blockBytes b,(blockBytes b).length⟩ tail) :
    Runs (SstIter.pass crc32c (readerOf crc32c blocks bloom))
      ⟨front.length,blockBytes b,(blockBytes done).length⟩ (rest ++ tail) := by
  induction rest generalizing done with
  | nil =>
    rw [append_nil] at parts
    subst parts
    exact later
  | cons r rest ih =>
    have more : ¬(readerOf crc32c blocks bloom).index.length ≤ front.length := by simp [readerOf,split]
    have mem : b ∈ blocks := split ▸ mem_append_right _ mem_cons_self
    have parsed := parsesNext fits mem parts
    refine .item ?_ (@ih (done ++ [r]) (by simp [parts]))
    simp [SstIter.pass,if_neg more,parsed]

theorem iterRuns (split : blocks = front ++ b :: back) :
    Runs (SstIter.pass crc32c (readerOf crc32c blocks bloom)) ⟨front.length,blockBytes b,0⟩ (b ++ back.flatten) := by
  have more : ¬(readerOf crc32c blocks bloom).index.length ≤ front.length := by simp [readerOf,split]
  refine @iterBlock crc32c bloom blocks fits front back b split _ [] b rfl ?_
  induction back generalizing front b with
  | nil =>
    have last : (readerOf crc32c blocks bloom).index[front.length+1]? = none := by simp [readerOf,split]
    have ends : (readerOf crc32c blocks bloom).index.length ≤ front.length+1 := by simp [readerOf,split]
    have finished : SstIter.pass crc32c (readerOf crc32c blocks bloom) ⟨front.length+1,[],0⟩ = .finished := if_pos ends
    refine .again ?_ (.finished finished)
    simp [SstIter.pass,if_neg more,parseEnd,SstIter.loadBlock,last]
  | cons c back ih =>
    have split' : blocks = (front ++ [b]) ++ c :: back := by simp [split]
    have loads := @iterLoads crc32c bloom blocks fits (front ++ [b]) back c split' (blockBytes b) (blockBytes b).length
    have runs := @iterBlock crc32c bloom blocks fits (front ++ [b]) back c split' _ [] c rfl
      (ih split' (by simp [readerOf,split]))
    rw [length_append,length_singleton] at loads runs
    refine .again ?_ runs
    simp only [SstIter.pass,if_neg more,parseEnd,loads]
    rfl

theorem scanWritten : (readerOf crc32c blocks bloom).scan crc32c = .ok blocks.flatten := by
  cases blocks with
  | nil => rfl
  | cons b back =>
    have loads := @iterLoads crc32c bloom _ fits [] back b rfl [] 0
    have short := (meetsOk (iterLoad _) loads).2
    rw [scan,show (⟨0,[],0⟩ : SstIter) = ⟨([] : List (List Record)).length,[],0⟩ from rfl,loads]
    exact collectRuns _ iterDescends (iterRuns fits rfl) short (leftPasses short _)

end

section
variable {bloom : BloomFilter} {blocks : List (List Record)} (ordered : Ordered blocks) (fits : Fitting blocks)
  (start stop : Bytes)

def inside (r : Record) : Bool := start ≤ r.1 ∧ r.1 < stop

variable {start stop}

theorem insideNone {records : List Record} (past : ∀ r ∈ records, stop ≤ r.1) :
    records.filter (inside start stop) = [] := by
  refine filter_eq_nil_iff.mpr fun r mem => ?_
  simp only [inside,decide_eq_true_eq,not_and,not_lt]
  exact fun _ => past r mem

theorem rangeLoads (fits : Fitting blocks) {front back b} (split : blocks = front ++ b :: back) (block off) :
    loadBlock crc32c (readerOf crc32c blocks bloom) stop ⟨front.length,block,off,false⟩ =
      .ok (if stop ≤ firstKey b then ⟨front.length,[],0,true⟩ else ⟨front.length,blockBytes b,0,false⟩) := by
  subst split
  have mem : b ∈ front ++ b :: back := mem_append_right _ mem_cons_self
  simp only [loadBlock,indexAt,readBlockAt (fits.sizes b mem)]
  split <;> rfl

theorem rangeBlock (fits : Fitting blocks) {front back : List (List Record)} {b}
    (split : blocks = front ++ b :: back) {after done rest} (parts : b = done ++ rest) (asc : Ascending (rest ++ after))
    (later : Runs (SstRangeIter.pass crc32c (readerOf crc32c blocks bloom) start stop)
      ⟨front.length,blockBytes b,(blockBytes b).length,false⟩ (after.filter (inside start stop))) :
    Runs (SstRangeIter.pass crc32c (readerOf crc32c blocks bloom) start stop)
      ⟨front.length,blockBytes b,(blockBytes done).length,false⟩ ((rest ++ after).filter (inside start stop)) := by
  induction rest generalizing done with
  | nil =>
    rw [append_nil] at parts
    subst parts
    exact later
  | cons r rest ih =>
    obtain ⟨above,tail⟩ := pairwise_cons.mp asc
    have mem : b ∈ blocks := split ▸ mem_append_right _ mem_cons_self
    have parsed := parsesNext fits mem parts
    have runs := @ih (done ++ [r]) (by simp [parts]) tail
    by_cases low : r.1 < start
    · have skipped : inside start stop r = false := by simp [inside,low]
      rw [cons_append,filter_cons_of_neg (by simp [skipped])]
      refine .again ?_ runs
      simp [SstRangeIter.pass,parsed,if_pos low,Bool.false_eq_true]
    · by_cases high : stop ≤ r.1
      · have nothing : ((r :: rest) ++ after).filter (inside start stop) = [] := by
          refine insideNone fun q held => ?_
          rcases mem_cons.mp held with rfl | more
          · exact high
          · exact le_trans high (le_of_lt (above q more))
        rw [nothing]
        refine .finished ?_
        simp [SstRangeIter.pass,parsed,if_neg low,if_pos high,Bool.false_eq_true]
      · have taken : inside start stop r = true := by simp [inside,not_lt.mp low,not_le.mp high]
        rw [cons_append,filter_cons_of_pos taken]
        refine .item ?_ runs
        simp [SstRangeIter.pass,parsed,if_neg low,if_neg high,Bool.false_eq_true]

theorem rangeEnters (fits : Fitting blocks) {front back : List (List Record)} {b}
    (split : blocks = front ++ b :: back) (filled : ∀ c ∈ b :: back, c ≠ []) (asc : Ascending (b ++ back.flatten))
    (later : Runs (SstRangeIter.pass crc32c (readerOf crc32c blocks bloom) start stop)
      ⟨front.length,blockBytes b,(blockBytes b).length,false⟩ (back.flatten.filter (inside start stop))) :
    Runs (SstRangeIter.pass crc32c (readerOf crc32c blocks bloom) start stop)
      (if stop ≤ firstKey b then ⟨front.length,[],0,true⟩ else ⟨front.length,blockBytes b,0,false⟩)
      ((b ++ back.flatten).filter (inside start stop)) := by
  by_cases past : stop ≤ firstKey b
  · have nothing : (b ++ back.flatten).filter (inside start stop) = [] := by
      obtain ⟨_,_,rfl⟩ := exists_cons_of_ne_nil (filled b mem_cons_self)
      exact insideNone fun r mem => le_trans past (firstKeyLe asc mem)
    rw [if_pos past,nothing]
    exact .finished rfl
  · rw [if_neg past]
    exact @rangeBlock crc32c bloom blocks start stop fits front back b split _ [] b rfl asc later

theorem rangeRuns (fits : Fitting blocks) {front back b}
    (split : blocks = front ++ b :: back) (filled : ∀ c ∈ b :: back, c ≠ []) (asc : Ascending (b ++ back.flatten)) :
    Runs (SstRangeIter.pass crc32c (readerOf crc32c blocks bloom) start stop)
      (if stop ≤ firstKey b then ⟨front.length,[],0,true⟩ else ⟨front.length,blockBytes b,0,false⟩)
      ((b ++ back.flatten).filter (inside start stop)) := by
  refine rangeEnters fits split filled asc ?_
  induction back generalizing front b with
  | nil =>
    have last : (readerOf crc32c blocks bloom).index[front.length+1]? = none := by simp [readerOf,split]
    refine .again ?_ (.finished (s := ⟨front.length+1,[],0,true⟩) rfl)
    simp [SstRangeIter.pass,parseEnd,loadBlock,last,Bool.false_eq_true]
  | cons c back ih =>
    have split' : blocks = (front ++ [b]) ++ c :: back := by simp [split]
    obtain ⟨-,filled'⟩ := forall_mem_cons.mp filled
    have later := (pairwise_append.mp asc).2.1
    have runs := rangeEnters fits split' filled' later (ih split' filled' later)
    have loads := @rangeLoads crc32c bloom blocks stop fits _ _ _ split' (blockBytes b) (blockBytes b).length
    rw [length_append,length_singleton] at loads runs
    refine .again ?_ runs
    simp [SstRangeIter.pass,parseEnd,loads,Bool.false_eq_true]

theorem scanRangeWritten (ordered : Ordered blocks) (fits : Fitting blocks) :
    (readerOf crc32c blocks bloom).scanRange crc32c start stop = .ok (blocks.flatten.filter (inside start stop)) := by
  have from' : ∀ {front b back}, blocks = front ++ b :: back → (∀ r ∈ front.flatten, r.1 < start) →
      ∃ it, loadBlock crc32c (readerOf crc32c blocks bloom) stop ⟨front.length,[],0,false⟩ = .ok it ∧
        collect (SstRangeIter.pass crc32c (readerOf crc32c blocks bloom) start stop) Fault.panicked
          (readerOf crc32c blocks bloom).passes it = .ok (blocks.flatten.filter (inside start stop)) := by
    intro front b back split low
    have asc := ordered.ascending
    rw [split,flatten_append,flatten_cons] at asc
    have runs := @rangeRuns crc32c bloom blocks start stop fits front back b split
      (fun c mem => ordered.filled c (split ▸ mem_append_right _ mem)) (pairwise_append.mp asc).2.1
    have loads := @rangeLoads crc32c bloom blocks stop fits _ _ _ split [] 0
    have ranging := (meetsOk (rangeLoad _) loads).2
    have skipped : front.flatten.filter (inside start stop) = [] := by
      refine filter_eq_nil_iff.mpr fun r mem => ?_
      simp [inside,low r mem]
    have result : blocks.flatten.filter (inside start stop) = (b ++ back.flatten).filter (inside start stop) := by
      rw [split,flatten_append,flatten_cons,filter_append,skipped,nil_append]
    rw [result]
    exact ⟨_,loads,collectRuns _ rangeDescends runs ranging (leftPasses ranging.short _)⟩
  have located := @findBlockLocates crc32c blocks bloom ordered start
  unfold scanRange
  generalize (readerOf crc32c blocks bloom).findBlock start = found at located ⊢
  cases located with
  | below =>
    cases blocks with
    | nil => rfl
    | cons b back =>
      obtain ⟨it,loads,result⟩ := @from' [] b back rfl (by simp)
      rw [length_nil] at loads
      simp [Option.getD_none,loads,result]
  | block split reached later =>
    obtain ⟨_,loads,result⟩ := from' split (frontBelow ordered split reached)
    simp [Option.getD_some,loads,result]

end

structure Writable (table : MemTable) : Prop where
  records : ∀ r ∈ table.iter, RecordFits r
  count : table.iter.length < 2^32
  size : table.bytes < 2^62

section
variable {table : MemTable} {blocks : List (List Record)}

theorem blocksLength (sound : ∀ b ∈ blocks, Sound b) : blocks.length ≤ blocks.flatten.length := by
  induction blocks with
  | nil => exact le_refl _
  | cons _ _ ih =>
    obtain ⟨here,later⟩ := forall_mem_cons.mp sound
    have positive := length_pos_of_ne_nil here.1
    have more := ih later
    simp only [length_cons,flatten_cons,length_append]
    omega

theorem soundOrdered (flat : blocks.flatten = table.iter) (sound : ∀ b ∈ blocks, Sound b) : Ordered blocks :=
  ⟨fun b mem => (sound b mem).1,flat ▸ table.map.ascending⟩

theorem soundFitting (flat : blocks.flatten = table.iter) (sound : ∀ b ∈ blocks, Sound b)
    (records : ∀ r ∈ table.iter, RecordFits r) : Fitting blocks := by
  have fits : ∀ b ∈ blocks, ∀ r ∈ b, RecordFits r := fun b mem r held =>
    records r (flat ▸ mem_flatten.mpr ⟨b,mem,held⟩)
  refine ⟨fits,fun b mem => ?_⟩
  rcases (sound b mem).2 with single | small
  · obtain ⟨r,rfl⟩ := length_eq_one_iff.mp single
    have short := (fits _ mem r mem_cons_self).2
    simpa [blockBytes] using short
  · simp only [blockSize] at small
    omega

theorem soundAddressable {m k} (flat : blocks.flatten = table.iter) (sound : ∀ b ∈ blocks, Sound b)
    (few : k < 256) (short : ∀ r ∈ table.iter, r.1.length < 2^16) (count : table.iter.length < 2^32)
    (size : table.bytes < 2^62) : Addressable crc32c blocks (.build m k (table.iter.map fst)) where
  short b mem := by
    obtain ⟨r,held,first⟩ := firstKeyMem (sound b mem).1
    exact first ▸ short r (flat ▸ mem_flatten.mpr ⟨b,mem,held⟩)
  count := lt_of_le_of_lt (blocksLength sound) (flat ▸ count)
  reach := by
    have fewer := blocksLength sound
    have bound := m.toNat_lt
    have total := table.counted
    rw [wiresLength,encodeLength,buildLength,blockLength,flat]
    rw [flat] at fewer
    simp only [headerLen]
    have same : totalBytes table.iter = table.bytes := total.symm
    omega
  few := few

end

theorem fileReadsAs (crc32c : Bytes → UInt32) {m k} (positive : m ≠ 0) (few : k < 256)
    (writable : Writable table) : ∃ reader, openSst (writeFromMemtable crc32c m k table) = .ok reader ∧
      (∀ key, reader.get crc32c key = .ok ((Sst.writeFromMemtable table).get key)) ∧
      reader.scan crc32c = .ok (Sst.writeFromMemtable table).scan ∧
      ∀ start stop, reader.scanRange crc32c start stop = .ok ((Sst.writeFromMemtable table).scanRange start stop) := by
  obtain ⟨blocks,flat,sound,file⟩ := @writtenFile crc32c m k table
  have ordered := soundOrdered flat sound
  have fits := soundFitting flat sound writable.records
  have short : ∀ r ∈ table.iter, r.1.length < 2^16 := fun r mem => (writable.records r mem).1
  have addressable := @soundAddressable crc32c table blocks m k flat sound few short writable.count writable.size
  refine ⟨_,file ▸ openWritten addressable,fun key => ?_,?_,fun start stop => ?_⟩
  · rw [← flat,getWritten ordered fits positive k key,flat]
    rfl
  · rw [scanWritten fits,flat]
    rfl
  · rw [scanRangeWritten ordered fits,flat]
    rfl

end

theorem tableRoundTrips (crc32c : Bytes → UInt32) {m k : UInt32} (positive : m ≠ 0) (few : k ≤ 30) {table : MemTable}
    (writable : Writable table) : ∃ reader, openSst (writeFromMemtable crc32c m k table) = .ok reader ∧
      (∀ key, key ≠ [] → reader.get crc32c key = table.get key) ∧ reader.get crc32c [] = .ok none ∧
      reader.scan crc32c = .ok table.iter ∧ ∀ start stop, reader.scanRange crc32c start stop =
        .ok (table.iter.filter fun r => start ≤ r.1 ∧ r.1 < stop) := by
  have fewer : k < 256 := UInt32.lt_of_le_of_lt few (by decide)
  obtain ⟨reader,opened,gets,scan,range⟩ := fileReadsAs crc32c positive fewer writable
  refine ⟨reader,opened,fun key named => ?_,?_,scan,range⟩
  · rw [gets,MemTable.get,show MemTable.validateKey key = .ok () from if_neg named]
    rfl
  · rw [gets]
    have absent : findIn [] table.map.entries = none := findInAbsent fun r mem => table.named r mem
    exact congrArg ok absent

def twoBlocks : MemTable :=
  (MemTable.new.insert [97] (List.replicate 4000 7) (by decide)).insert [98] (List.replicate 4000 8) (by decide)

theorem twoBlocksRoundTrip : ∃ reader, openSst (writeFromMemtable Checksum.crc32 64 7 twoBlocks) = .ok reader ∧
    (∀ key, key ≠ [] → reader.get Checksum.crc32 key = twoBlocks.get key) ∧
    reader.scan Checksum.crc32 = .ok twoBlocks.iter ∧
    reader.scanRange Checksum.crc32 [98] [99] = .ok [([98],List.replicate 4000 8)] := by
  have writable : Writable twoBlocks := ⟨by decide +kernel,by decide +kernel,by decide +kernel⟩
  obtain ⟨reader,opened,gets,-,scan,range⟩ :=
    tableRoundTrips Checksum.crc32 (by decide : (64 : UInt32) ≠ 0) (by decide : (7 : UInt32) ≤ 30) writable
  refine ⟨reader,opened,gets,scan,(range [98] [99]).trans (congrArg ok ?_)⟩
  decide +kernel

section
variable {crc32c : Bytes → UInt32} {key value : Bytes}

theorem decodeBlockOversized (long : payload.length = 2^32) (before after) {block}
    (read : decodeBlockAt crc32c (before ++ (encodeBlock crc32c payload ++ after)) before.length true = .ok block) :
    block = [] := by
  have size : leBytes 4 payload.length = leBytes 4 0 := by
    rw [long]
    exact leBytesWrap 4 0 1
  let data := before ++ (leBytes 4 0 ++ (leBytes 4 (crc32c payload).toNat ++ (payload ++ after)))
  have shape : before ++ (encodeBlock crc32c payload ++ after) = data := by
    simp [encodeBlock,data,size]
  have sized : slice data before.length (before.length+4) = leBytes 4 0 := by
    rw [sliceSkip (le_refl _),sliceHead (by omega) (by simp)]
  have zero : ofLeBytes (leBytes 4 0) = 0 := ofLeBytesWritten (by decide)
  have empty : slice data (before.length+8) (before.length+8) = [] := by simp [slice]
  rw [shape] at read
  simp only [decodeBlockAt,if_true,sized,zero,Nat.add_zero,empty] at read
  split at read
  · cases read
  · split at read
    · cases read
    · exact (ok.inj read).symm

theorem singleBlock (flat : blocks.flatten = [r]) (sound : ∀ b ∈ blocks, Sound b) : blocks = [[r]] := by
  cases blocks with
  | nil => cases flat
  | cons =>
    obtain ⟨here,later⟩ := forall_mem_cons.mp sound
    obtain ⟨_,_,rfl⟩ := exists_cons_of_ne_nil here.1
    rw [flatten_cons,cons_append] at flat
    obtain ⟨rfl,none⟩ := List.cons.inj flat
    obtain ⟨rfl,empty⟩ := append_eq_nil_iff.mp none
    have length := blocksLength later
    rw [empty] at length
    rw [length_eq_zero_iff.mp (Nat.le_zero.mp length)]

/- A record of 4 GiB whose key and value fit their own length fields. -/
theorem oversizedUnread {m k} (positive : m ≠ 0) (few : k ≤ 30)
    (single : table.iter = [(key,value)]) (short : key.length < 2^16) (long : 6+key.length+value.length = 2^32) (opened : openSst (writeFromMemtable crc32c m k table) = .ok reader) :
    reader.get crc32c key ≠ .ok (some value) := by
  obtain ⟨blocks,flat,sound,file⟩ := @writtenFile crc32c m k table
  have fewer : k < 256 := UInt32.lt_of_le_of_lt few (by decide)
  have bytes : table.bytes < 2^62 := by
    have counted : table.bytes = totalBytes table.iter := table.counted
    rw [counted,single]
    simp only [totalBytes,entryBytes,map_cons,map_nil,sum_cons,sum_nil]
    omega
  have addressable := @soundAddressable crc32c table blocks m k flat sound fewer (by simpa [single] using short)
    (by simp [single]) bytes
  rw [file,openWritten addressable] at opened
  cases ok.inj opened
  have ordered := soundOrdered flat sound
  rw [single] at flat
  obtain ⟨_,answered,own⟩ := buildAnswers positive k (table.iter.map fst) key
  cases own (by simp [single])
  have located := @findBlockLocates crc32c blocks (.build m k (table.iter.map fst)) ordered key
  cases singleBlock flat sound
  have bloom : ∀ b, (readerOf crc32c [[(key,value)]] b).bloom = b := fun _ => rfl
  have index := fun b => @indexAt crc32c [] [] [(key,value)] b
  have unread : ∀ {b block}, (readerOf crc32c [[(key,value)]] b).readBlock crc32c headerLen = .ok block → block = [] := by
    intro b block read
    have payload : (blockBytes [(key,value)]).length = 2^32 := by simpa [blockBytes] using long
    simp only [readBlock,readerOf,fileOf,wiresCons,append_assoc] at read
    exact decodeBlockOversized payload sstHeader _ read
  unfold SstReader.get
  rw [bloom,answered]
  simp only
  generalize (readerOf crc32c [[(key,value)]] (.build m k (table.iter.map fst))).findBlock key = found at located ⊢
  cases located with
  | below all => exact absurd (all _ mem_cons_self) (lt_irrefl _)
  | @block front b back split reached later =>
    obtain rfl : front = [] := by
      cases front with
      | nil => rfl
      | cons => simp at split
    have entry := index (.build m k (table.iter.map fst))
    simp only [nil_append] at entry
    simp only [entry]
    cases read : (readerOf crc32c [[(key,value)]] (.build m k (table.iter.map fst))).readBlock crc32c
        (headerLen+(wires crc32c []).length) with
    | error => simp
    | ok =>
      rw [unread read]
      simp [scanBlock,scanFrom,parseAt]

end

def oversized : MemTable := MemTable.new.insert [97] (List.replicate (2^32-7) 0) (by decide)

theorem oversizedDoesNotRoundTrip : (∀ r ∈ oversized.iter, r.1.length < 2^16 ∧ r.2.length < 2^32) ∧
    ¬∃ reader, openSst (writeFromMemtable Checksum.crc32 64 7 oversized) = .ok reader ∧
      reader.get Checksum.crc32 [97] = oversized.get [97] := by
  have single : oversized.iter = [([97],List.replicate (2^32-7) 0)] := rfl
  have long : 6+([97] : Bytes).length+(List.replicate (2^32-7) (0 : UInt8)).length = 2^32 := by
    rw [length_replicate]
    rfl
  constructor
  · intro r mem
    rw [single] at mem
    cases mem_singleton.mp mem
    refine ⟨by decide,?_⟩
    rw [length_replicate]
    decide
  · rintro ⟨_,opened,same⟩
    exact oversizedUnread (by decide) (by decide) single (by decide) long opened same

end NoeDB.SstRoundTrip
