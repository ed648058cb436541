import NoeDB.SstFile

/-! Reading a file of any bytes as a table. Blocks and lengths are checked before they are
used, the place and the size of the filter are not. -/
namespace NoeDB.SstDamage
open ByteString StorageTypes Bloom Loops SstFile List SstRangeIter SstReader Nat BloomFilter

def Meets {α : Type} (good : α → Prop) : Except Fault α → Prop
  | .error fault => fault ≠ .panicked
  | .ok a => good a

def Calm {α : Type} : Except Fault α → Prop := Meets fun _ => True

section
variable {α β : Type} {first : Except Fault α} {good : α → Prop}

theorem meetsBind {next : α → Except Fault β} : Meets last (first >>= next) ↔ Meets (fun a => Meets last (next a)) first := by
  cases first <;> rfl

theorem meetsOk (meets : Meets good first) {a} (ok : first = .ok a) : good a := by
  rwa [ok] at meets

theorem meetsError (meets : Meets good first) {fault} (failed : first = .error fault) : fault ≠ .panicked := by
  rwa [failed] at meets

theorem meetsImp {better : α → Prop} (meets : Meets good first) (imp : ∀ a, first = .ok a → good a → better a) :
    Meets better first := by
  cases first with
  | error => exact meets
  | ok a => exact imp a rfl meets

theorem meetsCalm (calm : Calm first) : Meets good first ↔ ∀ a, first = .ok a → good a :=
  ⟨fun meets _ => meetsOk meets,fun all => meetsImp calm fun a ok _ => all a ok⟩

theorem calmBind {next : α → Except Fault β} (calm : Calm first) (rest : ∀ a, Calm (next a)) : Calm (first >>= next) :=
  meetsBind.mpr (meetsImp calm fun a _ _ => rest a)

end

section
variable {crc32c : Bytes → UInt32} {data block : Bytes} {off : Nat} {checked : Bool}

theorem decodeMeets : Meets (fun block => block.length ≤ data.length) (decodeBlockAt crc32c data off checked) := by
  unfold decodeBlockAt
  generalize (if checked = true then 8 else 4) = header
  simp only
  split
  · nofun
  · split
    · nofun
    · split
      · nofun
      · simp only [Meets,slice,length_take,length_drop]
        omega

theorem recordInside {next} (parsed : parseAt block off = .record key value next) :
    off < next ∧ next ≤ block.length := by
  unfold parseAt at parsed
  split at parsed
  · cases parsed
  · simp only at parsed
    split at parsed
    · cases parsed
    · cases parsed
      omega

end

section
variable (crc32c : Bytes → UInt32) (reader : SstReader)

def left (blockIdx : Nat) (block : Bytes) (off : Nat) : Nat :=
  (reader.index.length-blockIdx)*(reader.content.length+2)+(block.length-off)

variable {crc32c reader}

theorem leftBlock {blockIdx next} (moved : next = blockIdx+1) (inside : blockIdx < reader.index.length) (short : block'.length ≤ reader.content.length) (off' block off) :
    left reader next block' off' < left reader blockIdx block off := by
  obtain ⟨more,behind⟩ : ∃ more, reader.index.length-blockIdx = more+1 := ⟨reader.index.length-next,by omega⟩
  have fewer : reader.index.length-next = more := by omega
  rw [left,left,behind,fewer,succ_mul]
  omega

theorem leftRecord {block off next} (parsed : parseAt block off = .record key value next) (blockIdx) :
    left reader blockIdx block next < left reader blockIdx block off := by
  have inside := recordInside parsed
  unfold left
  omega

theorem leftPasses {blockIdx block} (short : block.length ≤ reader.content.length) (off) :
    left reader blockIdx block off < reader.passes := by
  have blocks := mul_le_mul_right (reader.content.length+2) (sub_le reader.index.length blockIdx)
  rw [left,passes,succ_mul]
  omega

theorem iterLoad (it) : Meets (fun next => next.blockIdx = it.blockIdx ∧ next.block.length ≤ reader.content.length)
    (SstIter.loadBlock crc32c reader it) := by
  unfold SstIter.loadBlock
  split
  · exact ⟨rfl,zero_le _⟩
  · split
    · rename_i failed
      exact meetsError decodeMeets failed
    · rename_i read
      exact ⟨rfl,meetsOk decodeMeets read⟩

theorem iterDescends : Descends (SstIter.pass crc32c reader) (fun it => it.block.length ≤ reader.content.length)
    fun it => left reader it.blockIdx it.block it.off := by
  intro it next short on
  unfold SstIter.pass at on
  split at on
  · cases on
  · rename_i inside
    have more := not_le.mp inside
    have loads : ∀ {moved next}, moved.blockIdx = it.blockIdx+1 → SstIter.loadBlock crc32c reader moved = .ok next →
        next.block.length ≤ reader.content.length ∧ left reader next.blockIdx next.block next.off <
          left reader it.blockIdx it.block it.off := by
      intro moved _ one loaded
      obtain ⟨there,short⟩ := meetsOk (iterLoad moved) loaded
      exact ⟨short,leftBlock (there.trans one) more short _ _ _⟩
    cases parsed : parseAt it.block it.off with
    | record =>
      rw [parsed] at on
      cases on
      exact ⟨short,leftRecord parsed _⟩
    | short | cut =>
      simp only [parsed] at on
      split at on
      · cases on
        exact ⟨short,leftBlock rfl more short _ _ _⟩
      · rename_i loaded
        cases on
        exact loads rfl loaded

theorem iterCalm {next} : SstIter.pass crc32c reader it ≠ .failed .panicked next := by
  unfold SstIter.pass
  split
  · nofun
  · split
    · simp only
      split
      · rename_i failed
        rintro ⟨⟩
        exact meetsError (iterLoad _) failed rfl
      · nofun
    · simp only
      split <;> nofun
    · nofun

variable {start stop : Bytes}

structure Ranging (reader : SstReader) (it : SstRangeIter) : Prop where
  short : it.block.length ≤ reader.content.length
  inside : it.done = false → it.blockIdx < reader.index.length

theorem rangeLoad (it) : Meets (fun next => next.blockIdx = it.blockIdx ∧ Ranging reader next)
    (loadBlock crc32c reader stop it) := by
  unfold loadBlock
  split
  · exact ⟨rfl,zero_le _,nofun⟩
  · rename_i found
    split
    · exact ⟨rfl,zero_le _,nofun⟩
    · split
      · rename_i failed
        exact meetsError decodeMeets failed
      · rename_i read
        exact ⟨rfl,meetsOk decodeMeets read,fun _ => (List.getElem?_eq_some_iff.mp found).1⟩

theorem rangeUnloaded {it fault} (failed : loadBlock crc32c reader stop it = .error fault) :
    it.blockIdx < reader.index.length := by
  unfold loadBlock at failed
  split at failed
  · cases failed
  · rename_i found
    exact (List.getElem?_eq_some_iff.mp found).1

theorem rangeDescends : Descends (SstRangeIter.pass crc32c reader start stop) (Ranging reader)
    fun it => left reader it.blockIdx it.block it.off := by
  intro it next ranging on
  unfold SstRangeIter.pass at on
  split at on
  · cases on
  · rename_i going
    have more := ranging.inside (Bool.eq_false_iff.mpr going)
    have loads : ∀ {moved next}, moved.blockIdx = it.blockIdx+1 → loadBlock crc32c reader stop moved = .ok next →
        Ranging reader next ∧ left reader next.blockIdx next.block next.off < left reader it.blockIdx it.block it.off := by
      intro moved _ one loaded
      obtain ⟨there,ranging⟩ := meetsOk (rangeLoad moved) loaded
      exact ⟨ranging,leftBlock (there.trans one) more ranging.short _ _ _⟩
    cases parsed : parseAt it.block it.off with
    | record =>
      simp only [parsed] at on
      split_ifs at on <;> cases on <;> exact ⟨⟨ranging.short,ranging.inside⟩,leftRecord parsed _⟩
    | short | cut =>
      simp only [parsed] at on
      split at on
      · rename_i failed
        cases on
        exact ⟨⟨ranging.short,fun _ => rangeUnloaded failed⟩,leftBlock rfl more ranging.short _ _ _⟩
      · rename_i loaded
        cases on
        exact loads rfl loaded

theorem rangeCalm {next} : SstRangeIter.pass crc32c reader start stop it ≠ .failed .panicked next := by
  unfold SstRangeIter.pass
  split
  · nofun
  · split
    · simp only
      split
      · rename_i failed
        rintro ⟨⟩
        exact meetsError (rangeLoad _) failed rfl
      · nofun
    · simp only
      split <;> nofun
    · split_ifs <;> nofun

end

section
variable (crc32c : Bytes → UInt32) (reader : SstReader)

theorem calmCollected {σ : Type} {pass : σ → Pass σ Record Fault} {Sound size fuel s} (descends : Descends pass Sound size)
    (sound : Sound s) (enough : size s < fuel) (calm : ∀ {s next}, pass s ≠ .failed .panicked next) :
    Calm (collect pass .panicked fuel s) := by
  have never := collectNotExhausted _ descends sound enough calm
  cases done : collect pass .panicked fuel s with
  | error => exact fun same => never (same ▸ done)
  | ok => trivial

theorem scanCalm : Calm (reader.scan crc32c) := by
  unfold scan
  split
  · rename_i failed
    exact meetsError (iterLoad _) failed
  · rename_i loaded
    have short := (meetsOk (iterLoad _) loaded).2
    exact calmCollected iterDescends short (leftPasses short _) iterCalm

theorem scanRangeCalm (start stop) : Calm (reader.scanRange crc32c start stop) := by
  unfold scanRange
  split
  · rename_i failed
    exact meetsError (rangeLoad _) failed
  · rename_i loaded
    have ranging := (meetsOk (rangeLoad _) loaded).2
    exact calmCollected rangeDescends ranging (leftPasses ranging.short _) rangeCalm

theorem verifyCalm : Calm (reader.verifyAllBlocks crc32c) := by
  have all : ∀ (index : List IndexEntry) (count : Nat), Calm (index.foldlM
      (fun count e => (reader.readBlock crc32c e.offset).map fun _ => count+1) count) := by
    intro index
    induction index with
    | nil => exact fun _ => trivial
    | cons _ _ ih =>
      refine fun count => calmBind (meetsBind.mpr (meetsImp decodeMeets fun _ _ _ => trivial)) fun _ => ih _
  exact all reader.index 0

theorem findBlockInside (found : reader.findBlock key = some i) : i < reader.index.length := by
  unfold findBlock at found
  split at found
  · cases found
  · simp only at found
    split at found
    · cases found
    · rename_i positive
      cases found
      exact lt_of_lt_of_le (sub_one_lt positive) (partitionBound _ _)

/- A filter of no bits cannot be asked where keys are probed. -/
theorem getCalmIff : (∀ key, Calm (reader.get crc32c key)) ↔ ¬(reader.bloom.m = 0 ∧ 0 < reader.bloom.k) := by
  constructor
  · rintro calm empty
    have asked := calm []
    rw [SstReader.get,mayContain,if_pos empty] at asked
    exact asked rfl
  · intro sized _
    rw [SstReader.get,mayContain,if_neg sized]
    split
    · rename_i never
      cases never
    · trivial
    · split
      · trivial
      · rename_i i found
        rw [List.getElem?_eq_getElem (findBlockInside reader found)]
        simp only
        split
        · rename_i failed
          exact meetsError decodeMeets failed
        · trivial

structure Reads : Prop where
  get : ∀ key, Calm (reader.get crc32c key)
  scan : Calm (reader.scan crc32c)
  scanEnds : ∀ it, SstIter.loadBlock crc32c reader ⟨0,[],0⟩ = .ok it → Ends (SstIter.pass crc32c reader) it
  range : ∀ start stop, Calm (reader.scanRange crc32c start stop)
  rangeEnds : ∀ start stop it, SstRangeIter.loadBlock crc32c reader stop ⟨(reader.findBlock start).getD 0,[],0,false⟩ =
    .ok it → Ends (SstRangeIter.pass crc32c reader start stop) it
  verify : Calm (reader.verifyAllBlocks crc32c)

theorem readsIff : Reads crc32c reader ↔ ¬(reader.bloom.m = 0 ∧ 0 < reader.bloom.k) := by
  rw [← getCalmIff crc32c]
  exact ⟨Reads.get,fun get => ⟨get,scanCalm crc32c reader,
    fun it loaded => descendsEnds iterDescends (meetsOk (iterLoad _) loaded).2,scanRangeCalm crc32c reader,
    fun start stop it loaded => descendsEnds rangeDescends (meetsOk (rangeLoad _) loaded).2,verifyCalm crc32c reader⟩⟩

end

section
variable {content : Bytes} {footer : Footer}

theorem readExactCalm (pos n) : Calm (readExact content pos n) := by
  unfold readExact
  split
  · nofun
  · trivial

theorem readIndexCalm (count pos) : Calm (readIndex content count pos) := by
  induction count generalizing pos with
  | zero => trivial
  | succ _ ih =>
    refine calmBind (readExactCalm _ _) fun _ => calmBind (readExactCalm _ _) fun _ => ?_
    exact calmBind (readExactCalm _ _) fun _ => calmBind (ih _) fun _ => trivial

theorem readHeadCalm : Calm (readHead content) := by
  have sought : ∀ pos, Calm (seek pos) := by
    intro _
    unfold seek
    split
    · trivial
    · nofun
  have ends : Calm (readFooter content) := by
    unfold readFooter
    split
    · nofun
    · simp only
      split
      · nofun
      · trivial
  refine calmBind (readExactCalm _ _) fun magic => ?_
  simp only
  split
  · nofun
  · refine calmBind (readExactCalm _ _) fun version => ?_
    split
    · nofun
    · exact calmBind ends fun _ => calmBind (sought _) fun _ => calmBind (readIndexCalm _ _) fun _ => trivial

def filterBytes (content : Bytes) (footer : Footer) : Bytes := slice content footer.bloomOffset footer.indexOffset

/- The filter stands before the index, and it has bits if it has probes: its bytes begin
with the number of the bits and that of the probes. -/
structure FilterSound (content : Bytes) (footer : Footer) : Prop where
  ordered : footer.bloomOffset ≤ footer.indexOffset
  sized : footer.indexOffset ≤ content.length → 8 ≤ footer.indexOffset-footer.bloomOffset →
    ofLeBytes (slice (filterBytes content footer) 0 4) ≠ 0 ∨ (filterBytes content footer).getD 4 0 = 0

theorem filterSized (bytes) (probes : UInt8) :
    ¬(UInt32.ofNat (ofLeBytes (slice bytes 0 4)) = 0 ∧ 0 < probes.toUInt32) ↔ ofLeBytes (slice bytes 0 4) ≠ 0 ∨ probes = 0 := by
  have small : ofLeBytes (slice bytes 0 4) < 2^32 := by
    refine Nat.lt_of_lt_of_le (ofLeBytesLt _) (Nat.pow_le_pow_right (n := 256) (j := 4) (by decide) ?_)
    exact length_take_le _ _
  have bits : UInt32.ofNat (ofLeBytes (slice bytes 0 4)) = 0 ↔ ofLeBytes (slice bytes 0 4) = 0 := by
    rw [← UInt32.toNat_inj,UInt32.toNat_ofNat_of_lt' small]
    rfl
  have some' : 0 < probes.toUInt32 ↔ probes ≠ 0 := by
    rw [UInt32.lt_iff_toNat_lt,ne_eq,← UInt8.toNat_inj,UInt8.toNat_toUInt32]
    exact Nat.pos_iff_ne_zero
  rw [bits,some',not_and_or,not_not]

theorem readBloomIff : Meets (fun bloom => ¬(bloom.m = 0 ∧ 0 < bloom.k)) (readBloom content footer) ↔
    (footer.bloomOffset < 2^63 → FilterSound content footer) := by
  unfold readBloom seek
  by_cases near : footer.bloomOffset < 2^63
  · rw [if_pos near,forall_prop_of_true near]
    by_cases ordered : footer.bloomOffset ≤ footer.indexOffset
    · have upTo : footer.bloomOffset+(footer.indexOffset-footer.bloomOffset) = footer.indexOffset := by omega
      have length : (filterBytes content footer).length =
          min (footer.indexOffset-footer.bloomOffset) (content.length-footer.bloomOffset) := by
        rw [filterBytes,slice,length_take,length_drop]
      have decoded : Meets (fun bloom => ¬(bloom.m = 0 ∧ 0 < bloom.k)) (decode (filterBytes content footer)) ↔
          (8 ≤ (filterBytes content footer).length →
            ofLeBytes (slice (filterBytes content footer) 0 4) ≠ 0 ∨ (filterBytes content footer).getD 4 0 = 0) := by
        unfold decode
        split
        · exact iff_of_true (fun same => by cases same) (by omega)
        · rw [forall_prop_of_true (by omega)]
          exact filterSized _ _
      by_cases cut : 0 < footer.indexOffset-footer.bloomOffset ∧ content.length < footer.indexOffset
      · simp only [bind,Except.bind,if_neg (not_lt.mpr ordered),readExact,upTo,if_pos cut]
        exact iff_of_true (fun same => by cases same) ⟨ordered,by omega⟩
      · simp only [bind,Except.bind,if_neg (not_lt.mpr ordered),readExact,upTo,if_neg cut]
        refine decoded.trans ⟨fun sized => ⟨ordered,fun inside long => sized (by omega)⟩,fun sound long => ?_⟩
        exact sound.sized (by omega) (by omega)
    · simp only [bind,Except.bind,if_pos (not_le.mp ordered)]
      exact iff_of_false (fun calm => calm rfl) fun sound => ordered sound.ordered
  · rw [if_neg near]
    exact iff_of_true (fun same => by cases same) fun near' => absurd near' near

end

/- No records, and a filter with one probe and no bits. -/
def unsizedFilter (bloomOffset : Nat) : Bytes := sstHeader ++ ([0,0,0,0,1,0,0,0] ++ footerBytes ⟨24,0,bloomOffset⟩)

end NoeDB.SstDamage
