import NoeDB.Bloom
import NoeDB.Loops
import NoeDB.StorageTables
import NoeDB.Wal

/-! The bytes of a table file: how they are written (sstable/writer.rs, block.rs) and how
they are read (sstable/reader.rs). The checksum of a block is a parameter, and so are
the size of the filter and the number of its probes. -/
namespace NoeDB.SstFile
open ByteString StorageTypes StorageTables Bloom Loops
open Wal (unexpectedEof)

def sstMagic : Bytes := [78,79,69,83]
def sstVersion : Nat := 1
def sstVersionV2 : Nat := 2
def sstVersionV3 : Nat := 3
def blockSize : Nat := 4096
def headerLen : Nat := 16
def footerLen : Nat := 32

def corrupt (message : String) : Fault := .error (.corruptSstable message)

structure IndexEntry where
  firstKey : Bytes
  offset : Nat
  deriving DecidableEq, Repr

structure Footer where
  indexOffset : Nat
  indexCount : Nat
  bloomOffset : Nat
  deriving DecidableEq, Repr

def sstHeader : Bytes :=
  sstMagic ++ (leBytes 2 sstVersionV3 ++ (leBytes 4 blockSize ++ (leBytes 4 0 ++ leBytes 2 0)))

def encodeRecord (key value : Bytes) : Bytes :=
  leBytes 2 key.length ++ (leBytes 4 value.length ++ (key ++ value))

def indexBytes (index : List IndexEntry) : Bytes :=
  index.flatMap fun e => leBytes 2 e.firstKey.length ++ (e.firstKey ++ leBytes 8 e.offset)

def footerBytes (footer : Footer) : Bytes :=
  leBytes 8 footer.indexOffset ++ (leBytes 4 footer.indexCount ++ (leBytes 8 footer.bloomOffset ++
    (leBytes 4 0 ++ (sstMagic ++ (leBytes 2 sstVersionV3 ++ leBytes 2 0)))))

section
variable (crc32c : Bytes → UInt32)

def encodeBlock (payload : Bytes) : Bytes :=
  leBytes 4 payload.length ++ (leBytes 4 (crc32c payload).toNat ++ payload)

structure SstWriter where
  file : Bytes
  offset : Nat

def SstWriter.writeBlock (writer : SstWriter) (block : Bytes) : SstWriter :=
  let wire := encodeBlock crc32c block
  ⟨writer.file ++ wire,writer.offset+wire.length⟩

structure Writing where
  writer : SstWriter
  index : List IndexEntry
  block : Bytes

def Writing.add (w : Writing) (r : Record) : Writing :=
  let index := if w.block = [] then w.index ++ [⟨r.1,w.writer.offset⟩] else w.index
  let record := encodeRecord r.1 r.2
  if w.block ≠ [] ∧ blockSize < w.block.length+record.length then
    let writer := w.writer.writeBlock crc32c w.block
    ⟨writer,index ++ [⟨r.1,writer.offset⟩],record⟩
  else ⟨w.writer,index,w.block ++ record⟩

def writeFromMemtable (m k : UInt32) (table : MemTable) : Bytes :=
  let filled := table.iter.foldl (Writing.add crc32c) ⟨⟨sstHeader,headerLen⟩,[],[]⟩
  let writer := if filled.block = [] then filled.writer else filled.writer.writeBlock crc32c filled.block
  let bloom := BloomFilter.build m k (table.iter.map Prod.fst)
  let bloomOffset := writer.offset
  let indexOffset := writer.offset+bloom.encode.length
  writer.file ++ (bloom.encode ++ (indexBytes filled.index ++
    footerBytes ⟨indexOffset,filled.index.length,bloomOffset⟩))

end

def readExact (content : Bytes) (pos n : Nat) : Except Fault (Bytes × Nat) :=
  if 0 < n ∧ content.length < pos+n then .error unexpectedEof
  else .ok (slice content pos (pos+n),pos+n)

/- A file position has 63 bits. -/
def seek (pos : Nat) : Except Fault Unit :=
  if pos < 2^63 then .ok () else .error (.error (.io "Invalid argument (os error 22)"))

def readFooter (content : Bytes) : Except Fault Footer :=
  if content.length < headerLen+footerLen then .error (corrupt "file too small")
  else
    let buf := content.drop (content.length-footerLen)
    if slice buf 24 28 ≠ sstMagic then .error (corrupt "bad footer magic")
    else .ok ⟨ofLeBytes (slice buf 0 8),ofLeBytes (slice buf 8 12),ofLeBytes (slice buf 12 20)⟩

def readIndex (content : Bytes) : Nat → Nat → Except Fault (List IndexEntry)
  | 0,_ => .ok []
  | count+1,pos => do
      let (keyLen,pos) ← readExact content pos 2
      let (firstKey,pos) ← readExact content pos (ofLeBytes keyLen)
      let (offset,pos) ← readExact content pos 8
      let rest ← readIndex content count pos
      return ⟨firstKey,ofLeBytes offset⟩ :: rest

/- The length of the filter is a difference of two offsets, which must not underflow. -/
def readBloom (content : Bytes) (footer : Footer) : Except Fault BloomFilter := do
  seek footer.bloomOffset
  if footer.indexOffset < footer.bloomOffset then throw .panicked
  let (data,_) ← readExact content footer.bloomOffset (footer.indexOffset-footer.bloomOffset)
  BloomFilter.decode data

structure SstReader where
  index : List IndexEntry
  bloom : BloomFilter
  content : Bytes
  checksumBlocks : Bool
  deriving DecidableEq

/- What `open` reads before the filter: whether the blocks have checksums, the footer and
the index. -/
def readHead (content : Bytes) : Except Fault (Bool × Footer × List IndexEntry) := do
  let (magic,pos) ← readExact content 0 4
  if magic ≠ sstMagic then throw (corrupt "bad SST magic")
  let (ver,_) ← readExact content pos 2
  let version := ofLeBytes ver
  if version ≠ sstVersion ∧ version ≠ sstVersionV2 ∧ version ≠ sstVersionV3 then
    throw (corrupt "unsupported SST version")
  let footer ← readFooter content
  seek footer.indexOffset
  let index ← readIndex content footer.indexCount footer.indexOffset
  return (sstVersionV3 ≤ version,footer,index)

def openSst (content : Bytes) : Except Fault SstReader := do
  let (checksumBlocks,footer,index) ← readHead content
  let bloom ← readBloom content footer
  return ⟨index,bloom,content,checksumBlocks⟩

section
variable (crc32c : Bytes → UInt32)

/- Offsets have 64 bits here, so that none of the additions overflows. -/
def decodeBlockAt (data : Bytes) (off : Nat) (checksumBlocks : Bool) : Except Fault Bytes :=
  let header := if checksumBlocks then 8 else 4
  if data.length < off+header then .error (corrupt "block length header past EOF")
  else
    let len := ofLeBytes (slice data off (off+4))
    let start := off+header
    if data.length < start+len then .error (corrupt "block past EOF")
    else
      let payload := slice data start (start+len)
      if checksumBlocks ∧ (crc32c payload).toNat ≠ ofLeBytes (slice data (off+4) (off+8)) then
        .error (.error .checksumMismatch)
      else .ok payload

/- What stands at an offset of a block: less than the two lengths of a record, a record
that goes past the end of the block, or a record and the offset behind it. -/
inductive Parsed where
  | short
  | cut
  | record (key value : Bytes) (next : Nat)
  deriving DecidableEq

def parseAt (block : Bytes) (off : Nat) : Parsed :=
  if block.length < off+6 then .short
  else
    let keyLen := ofLeBytes (slice block off (off+2))
    let valLen := ofLeBytes (slice block (off+2) (off+6))
    if block.length < off+6+keyLen+valLen then .cut
    else .record (slice block (off+6) (off+6+keyLen)) (slice block (off+6+keyLen) (off+6+keyLen+valLen))
      (off+6+keyLen+valLen)

/- A record takes at least six bytes, so that the number of bytes is enough fuel. -/
def scanFrom (block key : Bytes) : Nat → Nat → Option Bytes
  | 0,_ => none
  | fuel+1,off =>
      match parseAt block off with
      | .short => none
      | .cut => none
      | .record k v next => if k = key then some v else scanFrom block key fuel next

def scanBlock (block key : Bytes) : Option Bytes := scanFrom block key (block.length+1) 0

namespace SstReader
variable (reader : SstReader)

def readBlock (offset : Nat) : Except Fault Bytes :=
  decodeBlockAt crc32c reader.content offset reader.checksumBlocks

def verifyAllBlocks : Except Fault Nat :=
  reader.index.foldlM (fun count e => (reader.readBlock crc32c e.offset).map fun _ => count+1) 0

def findBlock (key : Bytes) : Option Nat :=
  if reader.index = [] then none
  else
    let lo := partitionPoint (fun i => match reader.index[i]? with
      | some e => e.firstKey ≤ key
      | none => false) reader.index.length
    if lo = 0 then none else some (lo-1)

def get (key : Bytes) : Except Fault (Option Bytes) :=
  match reader.bloom.mayContain key with
  | .error fault => .error fault
  | .ok false => .ok none
  | .ok true =>
      match reader.findBlock key with
      | none => .ok none
      | some blockIdx =>
          match reader.index[blockIdx]? with
          | none => .error .panicked
          | some e =>
              match reader.readBlock crc32c e.offset with
              | .error fault => .error fault
              | .ok block => .ok (scanBlock block key)

end SstReader

structure SstIter where
  blockIdx : Nat
  block : Bytes
  off : Nat

namespace SstIter
variable (reader : SstReader)

def loadBlock (it : SstIter) : Except Fault SstIter :=
  match reader.index[it.blockIdx]? with
  | none => .ok {it with block := [], off := 0}
  | some e =>
      match reader.readBlock crc32c e.offset with
      | .error fault => .error fault
      | .ok block => .ok {it with block, off := 0}

/- One pass of the loop in `next`. The two lengths of a record that is cut have been
stepped over, and the next block is then loaded without looking at the outcome. -/
def pass (it : SstIter) : Pass SstIter Record Fault :=
  if reader.index.length ≤ it.blockIdx then .finished
  else match parseAt it.block it.off with
    | .short =>
        let moved : SstIter := {it with blockIdx := it.blockIdx+1}
        match loadBlock crc32c reader moved with
        | .error fault => .failed fault moved
        | .ok next => .again next
    | .cut =>
        let moved : SstIter := {it with blockIdx := it.blockIdx+1, off := it.off+6}
        match loadBlock crc32c reader moved with
        | .error _ => .again moved
        | .ok next => .again next
    | .record key value next => .item (key,value) {it with off := next}

end SstIter

structure SstRangeIter where
  blockIdx : Nat
  block : Bytes
  off : Nat
  done : Bool

namespace SstRangeIter
variable (reader : SstReader) (start stop : Bytes)

/- A block whose first key is not below the end of the range is not read. -/
def loadBlock (it : SstRangeIter) : Except Fault SstRangeIter :=
  match reader.index[it.blockIdx]? with
  | none => .ok {it with block := [], off := 0, done := true}
  | some e =>
      if stop ≤ e.firstKey then .ok {it with block := [], off := 0, done := true}
      else match reader.readBlock crc32c e.offset with
        | .error fault => .error fault
        | .ok block => .ok {it with block, off := 0}

def pass (it : SstRangeIter) : Pass SstRangeIter Record Fault :=
  if it.done then .finished
  else match parseAt it.block it.off with
    | .short =>
        let moved : SstRangeIter := {it with blockIdx := it.blockIdx+1}
        match loadBlock crc32c reader stop moved with
        | .error fault => .failed fault moved
        | .ok next => .again next
    | .cut =>
        let moved : SstRangeIter := {it with blockIdx := it.blockIdx+1, off := it.off+6}
        match loadBlock crc32c reader stop moved with
        | .error _ => .again moved
        | .ok next => .again next
    | .record key value next =>
        if key < start then .again {it with off := next}
        else if stop ≤ key then .finished
        else .item (key,value) {it with off := next}

end SstRangeIter

namespace SstReader
variable (reader : SstReader)

/- Every pass moves on by a block or by six bytes of one. -/
def passes : Nat := (reader.index.length+1)*(reader.content.length+2)

def scan : Except Fault (List Record) :=
  match SstIter.loadBlock crc32c reader ⟨0,[],0⟩ with
  | .error fault => .error fault
  | .ok it => collect (SstIter.pass crc32c reader) .panicked reader.passes it

def scanRange (start stop : Bytes) : Except Fault (List Record) :=
  match SstRangeIter.loadBlock crc32c reader stop ⟨(reader.findBlock start).getD 0,[],0,false⟩ with
  | .error fault => .error fault
  | .ok it => collect (SstRangeIter.pass crc32c reader start stop) .panicked reader.passes it

end SstReader
end
end NoeDB.SstFile
