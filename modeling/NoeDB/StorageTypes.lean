import NoeDB.ByteString

/-! Records of the storage engine: its errors, log entries (wal/entry.rs), versions
and read views (mvcc/version.rs, mvcc/read_view.rs), internal keys (mvcc/key.rs) and
the bytes a version is stored as (mvcc/codec.rs). -/
namespace NoeDB.StorageTypes
open ByteString

inductive StorageError where
  | invalidInput (message : String)
  | io (message : String)
  | corruptWal (message : String)
  | checksumMismatch
  | corruptSstable (message : String)
  | resourceExhausted (message : String)
  deriving DecidableEq, Repr

inductive Fault where
  | error (cause : StorageError)
  | panicked
  deriving DecidableEq, Repr

abbrev Record := Bytes × Bytes

inductive OpType where
  | put
  | delete
  deriving DecidableEq, Repr

structure LogEntry where
  op : OpType
  key : Bytes
  value : Bytes
  deriving DecidableEq, Repr

namespace LogEntry

def put (key value : Bytes) : LogEntry := ⟨.put,key,value⟩

def delete (key : Bytes) : LogEntry := ⟨.delete,key,[]⟩

def encodeCheck (entry : LogEntry) : Except Fault Unit :=
  if entry.key = [] then .error (.error (.invalidInput "WAL key must not be empty"))
  else if entry.op = .delete ∧ entry.value ≠ [] then
    .error (.error (.invalidInput "delete records must not carry a value"))
  else .ok ()

end LogEntry

abbrev CommitTs := UInt64
abbrev TxnId := UInt64

structure Version where
  commitTs : CommitTs
  value : Bytes
  deleted : Bool
  deriving DecidableEq, Repr

namespace Version

def put (commitTs : CommitTs) (value : Bytes) : Version := ⟨commitTs,value,false⟩

def tombstone (commitTs : CommitTs) : Version := ⟨commitTs,[],true⟩

end Version

structure ReadView where
  txnId : TxnId
  snapshotTs : CommitTs
  activeTxns : List TxnId
  deriving DecidableEq, Repr

namespace ReadView

def isVisible (view : ReadView) (version : Version) (writerTxn : Option TxnId) : Bool :=
  if version.commitTs = 0 then writerTxn = some view.txnId
  else if view.snapshotTs < version.commitTs then false
  else match writerTxn with
    | none => true
    | some w => !(view.activeTxns.contains w && w != view.txnId)

/- The view that `get`, `delete` and the engine's scans read at. -/
def latest : ReadView := ⟨0,18446744073709551615,[]⟩

theorem latestVisible : latest.isVisible version none = true ↔ version.commitTs ≠ 0 := by
  have bound : ¬latest.snapshotTs < version.commitTs := by
    have top := version.commitTs.toNat_lt
    rw [UInt64.lt_iff_toNat_lt]
    simp only [latest,UInt64.reduceToNat]
    omega
  unfold isVisible
  split <;> simp_all

end ReadView

def encodeInternalKey (userKey : Bytes) (commitTs : CommitTs) : Bytes :=
  userKey ++ beBytes 8 (~~~commitTs).toNat

def decodeUserKey (internal : Bytes) : Bytes := internal.take (internal.length-8)

def userKeyPrefixEnd (userKey : Bytes) : Bytes := following userKey

theorem searchableIff (named : key ≠ []) : ¬userKeyPrefixEnd key < key ↔ following key ≠ [] := by
  refine ⟨fun searchable none => ?_,fun found => ?_⟩
  · rw [userKeyPrefixEnd,none] at searchable
    exact searchable (lt_of_le_of_ne (le_of_not_gt (List.not_lt_nil _)) (Ne.symm named))
  · have above := followingAbove found []
    rw [List.append_nil] at above
    exact lt_asymm above

@[simp] theorem decodeInternalKey (userKey commitTs) :
    decodeUserKey (encodeInternalKey userKey commitTs) = userKey := by
  simp [decodeUserKey,encodeInternalKey]

theorem internalKeyLength (userKey commitTs) : (encodeInternalKey userKey commitTs).length = userKey.length+8 := by
  simp [encodeInternalKey]

theorem internalKeyInjective
    (same : encodeInternalKey userKey commitTs = encodeInternalKey other stamp) : userKey = other ∧ commitTs = stamp := by
  have keys : userKey = other := by simpa using congrArg decodeUserKey same
  subst keys
  have suffix : leBytes 8 (~~~commitTs).toNat = leBytes 8 (~~~stamp).toNat := by
    simpa [encodeInternalKey,beBytes] using same
  have numbers := congrArg ofLeBytes suffix
  rw [ofLeBytesWritten (~~~commitTs).toNat_lt,ofLeBytesWritten (~~~stamp).toNat_lt] at numbers
  exact ⟨rfl,UInt64.not_inj.mp (UInt64.toNat_inj.mp numbers)⟩

theorem internalKeyLt (userKey) (newer : stamp < commitTs) :
    encodeInternalKey userKey commitTs < encodeInternalKey userKey stamp := by
  refine appendLtAppend userKey ((beBytesLt (~~~commitTs).toNat_lt (~~~stamp).toNat_lt).mpr ?_)
  rw [UInt64.toNat_not,UInt64.toNat_not]
  have bound := commitTs.toNat_lt
  have less := UInt64.lt_iff_toNat_lt.mp newer
  simp only [UInt64.size]
  omega

def magic : Bytes := [77,86,67,67]
def formatV1 : UInt8 := 1

def Marked (bytes : Bytes) : Prop := magic.isPrefixOf bytes = true

instance (bytes) : Decidable (Marked bytes) := inferInstanceAs (Decidable (_ = true))

def versionBytes (version : Version) : Bytes :=
  magic ++ formatV1 :: (leBytes 8 version.commitTs.toNat ++
    (if version.deleted then 1 else 0) :: (leBytes 4 version.value.length ++ version.value))

def encodeVersion (version : Version) : Except Fault Bytes :=
  if version.commitTs = 0 then .error (.error (.invalidInput "cannot persist uncommitted intent"))
  else .ok (versionBytes version)

def decodeVersion (bytes : Bytes) : Except Fault Version :=
  if bytes.length < 18 then .error (.error (.corruptSstable "truncated MVCC value"))
  else if bytes.take 4 ≠ magic then .error (.error (.corruptSstable "bad MVCC magic"))
  else if bytes.getD 4 0 ≠ formatV1 then .error (.error (.corruptSstable "unsupported MVCC format"))
  else
    let commitTs := ofLeBytes (slice bytes 5 13)
    let deleted := bytes.getD 13 0 ≠ 0
    let valLen := ofLeBytes (slice bytes 14 18)
    if bytes.length < 18+valLen then .error (.error (.corruptSstable "truncated MVCC payload"))
    else .ok ⟨UInt64.ofNat commitTs,slice bytes 18 (18+valLen),deleted⟩

/- A value without the mark is a version of the time before versions: timestamp 1. -/
def decodeOrLegacy (bytes : Bytes) : Except Fault Version :=
  if Marked bytes then decodeVersion bytes else .ok (.put 1 bytes)

def decodeVersionRef (bytes : Bytes) : Option (CommitTs × Bool × Bytes) :=
  if bytes.length < 18 ∨ bytes.take 4 ≠ magic ∨ bytes.getD 4 0 ≠ formatV1 then none
  else
    let commitTs := ofLeBytes (slice bytes 5 13)
    let deleted := bytes.getD 13 0 ≠ 0
    let valLen := ofLeBytes (slice bytes 14 18)
    if bytes.length < 18+valLen then none
    else some (UInt64.ofNat commitTs,deleted,slice bytes 18 (18+valLen))

theorem markedVersion (version) : Marked (versionBytes version) := by
  simp [Marked,versionBytes,magic]

theorem sliceSkip {front rest : Bytes} (past : front.length ≤ start) :
    slice (front ++ rest) start stop = slice rest (start-front.length) (stop-front.length) := by
  have span : stop-front.length-(start-front.length) = stop-start := by omega
  rw [slice,slice,span,List.drop_append,List.drop_eq_nil_of_le past,List.nil_append]

theorem sliceHead {front back : Bytes} (begins : start = 0) (ends : stop = front.length) :
    slice (front ++ back) start stop = front := by
  subst begins ends
  simp [slice]

structure Layout (version : Version) : Prop where
  long : ¬(versionBytes version).length < 18+version.value.length
  begins : (versionBytes version).take 4 = magic
  format : (versionBytes version).getD 4 0 = formatV1
  stamp : slice (versionBytes version) 5 13 = leBytes 8 version.commitTs.toNat
  flag : (versionBytes version).getD 13 0 = if version.deleted then 1 else 0
  size : slice (versionBytes version) 14 18 = leBytes 4 version.value.length
  payload : slice (versionBytes version) 18 (18+version.value.length) = version.value

theorem versionLayout (version) : Layout version where
  long := by simp [versionBytes,magic]; omega
  begins := by simp [versionBytes,magic]
  format := by simp [versionBytes,magic]
  stamp := by simp [versionBytes,magic,slice]
  flag := by
    simp only [versionBytes,magic]
    simp [List.getD_eq_getElem?_getD]
  size := by simp [versionBytes,magic,slice,List.drop_append,List.drop_eq_nil_of_le]
  payload := by simp [versionBytes,magic,slice,List.drop_append,List.drop_eq_nil_of_le]

theorem decodeEncoded (fits : version.value.length < 2^32) : decodeVersion (versionBytes version) = .ok version := by
  have layout := versionLayout version
  have stamp : ofLeBytes (leBytes 8 version.commitTs.toNat) = version.commitTs.toNat :=
    ofLeBytesWritten version.commitTs.toNat_lt
  have size : ofLeBytes (leBytes 4 version.value.length) = version.value.length := ofLeBytesWritten fits
  have long := layout.long
  have enough : ¬(versionBytes version).length < 18 := by omega
  simp only [decodeVersion,layout.begins,layout.format,layout.stamp,layout.flag,layout.size,stamp,size,
    layout.payload,if_neg enough,if_neg long,ne_eq,not_true_eq_false,if_false,UInt64.ofNat_toNat]
  cases version with
  | mk _ _ deleted => cases deleted <;> rfl

theorem decodeVersionCalm (bytes) : decodeVersion bytes ≠ .error .panicked := by
  unfold decodeVersion
  dsimp only
  repeat' split
  all_goals simp

theorem decodeRefIff : decodeVersionRef bytes = some (version.commitTs,version.deleted,version.value) ↔
      decodeVersion bytes = .ok version := by
  unfold decodeVersionRef decodeVersion
  by_cases long : bytes.length < 18
  · simp [long]
  by_cases begins : bytes.take 4 = magic
  · by_cases format : bytes.getD 4 0 = formatV1
    · simp only [long,begins,format,ne_eq,not_true_eq_false,or_self,if_false]
      split
      · simp
      · cases version
        simp only [Option.some.injEq,Prod.mk.injEq,Except.ok.injEq,Version.mk.injEq]
        tauto
    · rw [if_pos (.inr (.inr format)),if_neg long,if_neg (not_not_intro begins),if_pos format]
      simp
  · simp [long,begins]

end NoeDB.StorageTypes
