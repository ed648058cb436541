import NoeDB.LsmAgreement
import NoeDB.LsmGc
import NoeDB.LsmRecords
import NoeDB.MvccTable

/-! Trees that hold versions only, as `put_version` writes them: what they hold after each
operation, and that both read paths find the newest version at the snapshot. -/
namespace NoeDB.LsmVersions
open ByteString StorageTypes StorageTables Fallible List
open LatestItem Lsm LsmTree LsmLevels LsmReads LsmCalls LsmCompaction LsmAgreement LsmGc LsmRecords MvccTable

def recordOf (key : Bytes) (version : Version) : Record :=
  (encodeInternalKey key version.commitTs,versionBytes version)

def Held (tree : LsmTree) (key : Bytes) (version : Version) : Prop := recordOf key version ∈ scanned tree

structure Versioned (tree : LsmTree) : Prop where
  levels : ∃ l0 l1, Levels tree l0 l1
  shape : ∀ r ∈ scanned tree, ∃ key version, r = recordOf key version ∧ version.commitTs ≠ 0 ∧
    version.value.length < 2^32
  single : ∀ key v w, Held tree key v → Held tree key w → v.commitTs = w.commitTs → v = w

@[mk_iff]
structure Findable (tree : LsmTree) (key : Bytes) : Prop where
  named : key ≠ []
  searchable : ¬userKeyPrefixEnd key < key
  free : ∀ r ∈ scanned tree, r.1 ≠ key

instance (tree key) : Decidable (Findable tree key) := decidable_of_iff' _ (findable_iff tree key)

theorem versionBytesInjective (same : versionBytes v = versionBytes w) : v = w := by
  have first := versionLayout v
  have second := versionLayout w
  have lengths : v.value.length = w.value.length := by
    have total := congrArg List.length same
    rw [versionLength,versionLength] at total
    omega
  have stamps : v.commitTs = w.commitTs := by
    have bytes := congrArg ofLeBytes (first.stamp.symm.trans ((congrArg (slice · 5 13) same).trans second.stamp))
    rw [ofLeBytesWritten v.commitTs.toNat_lt,ofLeBytesWritten w.commitTs.toNat_lt] at bytes
    exact UInt64.toNat_inj.mp bytes
  have flags : v.deleted = w.deleted := by
    have bytes := first.flag.symm.trans ((congrArg (List.getD · 13 0) same).trans second.flag)
    cases left : v.deleted <;> cases right : w.deleted <;> simp [left,right] at bytes ⊢
  have values : v.value = w.value := by
    have bytes := (congrArg (slice · 18 (18+v.value.length)) same).trans (lengths ▸ second.payload)
    exact first.payload.symm.trans bytes
  cases v
  cases w
  simp_all

theorem recordInjective (same : recordOf key v = recordOf other w) : key = other ∧ v = w :=
  ⟨(internalKeyInjective (congrArg Prod.fst same)).1,versionBytesInjective (congrArg Prod.snd same)⟩

theorem recordVersion (fits : version.value.length < 2^32) : versionOf (recordOf key version) = some version := by
  simp only [versionOf,recordOf,decodeOrLegacy,if_pos (markedVersion version),decodeEncoded fits]
  rfl

theorem recordRead (named : key ≠ []) (fits : version.value.length < 2^32) :
    readAs (recordOf key version) = some (key,version.commitTs,version.deleted,version.value) := by
  have long : 8 < (recordOf key version).1.length := by
    have positive := length_pos_of_ne_nil named
    simp only [recordOf,internalKeyLength]
    omega
  have parts := decodeRefIff.mpr (decodeEncoded fits)
  unfold readAs
  rw [if_pos ⟨markedVersion version,long⟩]
  simp [recordOf,parts,decodeInternalKey,Option.map_some]

section
variable {tree next : LsmTree} {key : Bytes} {view : ReadView}

theorem versionedFresh (config) : Versioned (fresh config) where
  levels := ⟨[],[],rfl,rfl⟩
  shape _ mem := absurd mem not_mem_nil
  single _ _ _ held := absurd held not_mem_nil

theorem Versioned.committed (versioned : Versioned tree) (held : Held tree key version) :
    version.commitTs ≠ 0 ∧ version.value.length < 2^32 := by
  obtain ⟨_,w,same,rest⟩ := versioned.shape _ held
  obtain ⟨rfl,rfl⟩ := recordInjective same
  exact rest

theorem Versioned.copied (versioned : Versioned tree) : Copied tree where
  levels := versioned.levels
  agree r left q right same := by
    obtain ⟨key,v,rfl,-⟩ := versioned.shape r left
    obtain ⟨_,w,rfl,-⟩ := versioned.shape q right
    obtain ⟨rfl,stamps⟩ := internalKeyInjective same
    rw [versioned.single key v w left right stamps]

structure OwnVersions (tree : LsmTree) (key : Bytes) : Prop where
  named : key ≠ []
  searchable : ¬userKeyPrefixEnd key < key
  shape : ∀ r ∈ scanned tree, Concerns key r → ∃ version, r = recordOf key version
  committed : ∀ version, Held tree key version → version.commitTs ≠ 0 ∧ version.value.length < 2^32
  single : ∀ v w, Held tree key v → Held tree key w → v.commitTs = w.commitTs → v = w

theorem versionedOwn (versioned : Versioned tree) (findable : Findable tree key) : OwnVersions tree key where
  named := findable.named
  searchable := findable.searchable
  shape r mem of := by
    obtain ⟨other,version,rfl,-⟩ := versioned.shape r mem
    rcases of with decoded | same
    · have keys : other = key := by simpa [recordOf] using decoded
      subst keys
      exact ⟨version,rfl⟩
    · exact absurd same (findable.free _ mem)
  committed _ held := versioned.committed held
  single v w := versioned.single key v w

theorem ownAlike (own : OwnVersions tree key) : Alike tree key where
  searchable := own.searchable
  read r mem of := by
    obtain ⟨version,rfl⟩ := own.shape r mem of
    have fits := (own.committed version mem).2
    unfold ReadAlike
    rw [recordVersion fits]
    exact recordRead own.named fits
  untied r left of q right of' := by
    obtain ⟨v,rfl⟩ := own.shape r left of
    obtain ⟨w,rfl⟩ := own.shape q right of'
    unfold SameStamp
    rw [recordVersion (own.committed v left).2,recordVersion (own.committed w right).2]
    intro same
    rw [own.single v w left right (Option.some.inj same)]

theorem ownLatest (own : OwnVersions tree key) : ∃ found, tree.findVisibleVersion key view = .ok found ∧
      Latest Version.commitTs (fun v => Held tree key v ∧ v.commitTs ≤ view.snapshotTs) found := by
  have alike := ownAlike own
  have versions : ∀ v, v ∈ versionsIn key (pointRecords tree key) ↔ Held tree key v := by
    intro v
    rw [memVersions own.named alike]
    constructor
    · rintro ⟨r,mem,of,version⟩
      obtain ⟨w,rfl⟩ := own.shape r mem of
      rw [recordVersion (own.committed w mem).2] at version
      exact Option.some.inj version ▸ mem
    · intro held
      exact ⟨_,held,.inl (decodeInternalKey _ _),recordVersion (own.committed v held).2⟩
  refine ⟨_,alikeFind alike,(latestCongr fun v => ?_).mp bestLatest⟩
  rw [versions,visibleIff]
  exact and_congr_right fun held => and_iff_right (own.committed v held).1

theorem ownReading (own : OwnVersions tree key) : ∃ value, tree.getVisible key view = .ok value ∧
      Reading (fun v => Held tree key v ∧ v.commitTs ≤ view.snapshotTs) value := by
  obtain ⟨found,read,latest⟩ := @ownLatest _ _ view own
  refine ⟨found.bind shown,?_,found,latest,rfl⟩
  rw [getVisible,read]

theorem getReading (versioned : Versioned tree) (findable : Findable tree key) :
    ∃ value, tree.getVisible key view = .ok value ∧
      Reading (fun v => Held tree key v ∧ v.commitTs ≤ view.snapshotTs) value :=
  ownReading (versionedOwn versioned findable)

section
variable {version : Version} (fresh : ∀ v, Held tree key v → v.commitTs ≠ version.commitTs)
include fresh

theorem wroteRecords (wrote : Wrote tree (.put (recordOf key version).1 (recordOf key version).2) next)
    (shape : r ∈ scanned tree → ∃ other v, r = recordOf other v) :
    r ∈ scanned next ↔ r = recordOf key version ∨ r ∈ scanned tree := by
  refine ⟨putMem wrote,?_⟩
  rintro (rfl | old)
  · exact (memPut wrote).mpr (.inr (.inl rfl))
  · refine putKeeps wrote old fun same => ?_
    obtain ⟨_,v,rfl⟩ := shape old
    obtain ⟨rfl,stamps⟩ := internalKeyInjective same
    exact fresh v old stamps

theorem wroteSingle (records : ∀ u, Held next k u → recordOf k u = recordOf key version ∨ Held tree k u)
    (single : ∀ v w, Held tree k v → Held tree k w → v.commitTs = w.commitTs → v = w)
    (left : Held next k v) (right : Held next k w) (stamps : v.commitTs = w.commitTs) : v = w := by
  rcases records v left with one | old <;> rcases records w right with two | old'
  · exact (recordInjective one).2.trans (recordInjective two).2.symm
  · obtain ⟨rfl,rfl⟩ := recordInjective one
    exact absurd stamps.symm (fresh w old')
  · obtain ⟨rfl,rfl⟩ := recordInjective two
    exact absurd stamps (fresh v old)
  · exact single v w old old' stamps

theorem wroteVersion (versioned : Versioned tree) (committed : version.commitTs ≠ 0)
    (fits : version.value.length < 2^32) (wrote : Wrote tree (.put (recordOf key version).1 (recordOf key version).2) next) :
    Versioned next ∧ ∀ r, r ∈ scanned next ↔ r = recordOf key version ∨ r ∈ scanned tree := by
  have records : ∀ r, r ∈ scanned next ↔ r = recordOf key version ∨ r ∈ scanned tree := fun r =>
    wroteRecords fresh wrote fun old => (versioned.shape r old).imp fun _ => .imp fun _ => And.left
  refine ⟨⟨levelsKept versioned.copied wrote,fun r mem => ?_,fun k v w => ?_⟩,records⟩
  · rcases (records r).mp mem with rfl | old
    · exact ⟨key,version,rfl,committed,fits⟩
    · exact versioned.shape r old
  · exact wroteSingle fresh (fun u => (records _).mp) (versioned.single k)

end

theorem movedVersioned (versioned : Versioned tree) (moved : Moved tree next) : Versioned next where
  levels := moved.levels
  shape r mem := versioned.shape r ((moved.records r).mp mem)
  single k v w left right := versioned.single k v w ((moved.records _).mp left) ((moved.records _).mp right)

structure Added (tree : LsmTree) (key : Bytes) (version : Version) (next : LsmTree) : Prop where
  versioned : Versioned next
  records : ∀ r, r ∈ scanned next ↔ r = recordOf key version ∨ r ∈ scanned tree
  active : ∀ r ∈ next.active.iter, r = recordOf key version ∨ r ∈ tree.active.iter

theorem putVersionAdds (versioned : Versioned tree) (committed : version.commitTs ≠ 0)
    (fits : version.value.length < 2^32) (fresh : ∀ v, Held tree key v → v.commitTs ≠ version.commitTs) :
    ∃ next, Returns (putVersion key version) tree () next ∧ Added tree key version next := by
  obtain ⟨u,mid,written⟩ := versionWriteSucceeds tree key committed
  have wrote := (versionWriteReturns written).2
  obtain ⟨versioned',records⟩ := wroteVersion fresh versioned committed fits wrote
  obtain ⟨next,settles⟩ := settlesExists (.inl (putActive wrote.applied).1) versioned'.levels
  have moved := settlesMoved versioned'.copied settles
  refine ⟨next,putVersionReturns.mpr ⟨mid,written,settles⟩,movedVersioned versioned' moved,?_,?_⟩
  · exact fun r => (moved.records r).trans (records r)
  · intro r mem
    exact ((wrotePut wrote).2 r).mp (moved.active r mem) |>.imp_right And.left

theorem putVersionMoves (short : key.length+version.value.length+39 < 2^32)
    (done : Returns (putVersion key version) tree u next) : Moves tree next := by
  obtain ⟨_,wrote,settles⟩ := putVersionReturns.mp done
  exact (versionMoves short wrote).trans (settlesMoves settles)

theorem memCollected : r ∈ scanned (collected tree m) ↔
    r ∈ tree.storedRecords none ∨ r ∈ tree.active.iter ∧ ¬Pruned tree.active.iter m r := by
  have active : r ∈ (collected tree m).active.iter ↔ r ∈ tree.active.iter ∧ ¬Pruned tree.active.iter m r := by
    simp only [MemTable.iter,collectedEntries,mem_filter,stays,Bool.not_eq_true']
    exact and_congr_right fun _ => decide_eq_false_iff_not
  rw [scanned,mem_append,active]
  rfl

theorem collectedSubset (mem : r ∈ scanned (collected tree m)) : r ∈ scanned tree := by
  rcases memCollected.mp mem with file | ⟨own,-⟩
  · exact mem_append_left _ file
  · exact mem_append_right _ own

theorem versionedCollected (versioned : Versioned tree) (m) : Versioned (collected tree m) where
  levels := by
    obtain ⟨l0,l1,levels⟩ := versioned.levels
    exact ⟨l0,l1,levels.level0,levels.level1⟩
  shape r mem := versioned.shape r (collectedSubset mem)
  single k v w left right := versioned.single k v w (collectedSubset left) (collectedSubset right)

theorem latestInFrom (records : List Record) (user start) :
    let latest := records.foldl (fun latest r =>
      match decodeOrLegacy r.2 with
      | .ok v => if decodeUserKey r.1 = user ∧ latest < v.commitTs then v.commitTs else latest
      | .error _ => latest) start
    start ≤ latest ∧ (∀ r ∈ records, ∀ v, decodeOrLegacy r.2 = .ok v → decodeUserKey r.1 = user → v.commitTs ≤ latest) ∧
      (latest = start ∨ ∃ r ∈ records, ∃ v, decodeOrLegacy r.2 = .ok v ∧ decodeUserKey r.1 = user ∧ v.commitTs = latest) := by
  induction records generalizing start with
  | nil => simp
  | cons r rest ih =>
    simp only [foldl_cons]
    cases decoded : decodeOrLegacy r.2 with
    | error =>
      obtain ⟨above,all,from'⟩ := ih start
      refine ⟨above,forall_mem_cons.mpr ⟨fun v found => ?_,all⟩,?_⟩
      · rw [decoded] at found
        cases found
      · rcases from' with same | ⟨q,mem,rest⟩
        · exact .inl same
        · exact .inr ⟨q,mem_cons_of_mem _ mem,rest⟩
    | ok w =>
      simp only
      split
      · rename_i newer
        obtain ⟨above,all,from'⟩ := ih w.commitTs
        refine ⟨le_trans (le_of_lt newer.2) above,forall_mem_cons.mpr ⟨fun v found _ => ?_,all⟩,.inr ?_⟩
        · rw [decoded] at found
          cases found
          exact above
        · rcases from' with same | ⟨q,mem,rest⟩
          · exact ⟨r,mem_cons_self,w,decoded,newer.1,same.symm⟩
          · exact ⟨q,mem_cons_of_mem _ mem,rest⟩
      · rename_i older
        obtain ⟨above,all,from'⟩ := ih start
        refine ⟨above,forall_mem_cons.mpr ⟨fun v found user' => ?_,all⟩,?_⟩
        · rw [decoded] at found
          cases found
          exact le_trans (not_lt.mp fun less => older ⟨user',less⟩) above
        · rcases from' with same | ⟨q,mem,rest⟩
          · exact .inl same
          · exact .inr ⟨q,mem_cons_of_mem _ mem,rest⟩

theorem prunedNewer (shape : ∀ r ∈ scanned tree, decodeUserKey r.1 = key → ∃ v, r = recordOf key v)
    (fits : ∀ v, Held tree key v → v.value.length < 2^32) (mem : recordOf key version ∈ tree.active.iter)
    (pruned : Pruned tree.active.iter m (recordOf key version)) :
    version.commitTs < m ∧ ∃ w, recordOf key w ∈ tree.active.iter ∧ version.commitTs < w.commitTs := by
  have held : ∀ {r : Record}, r ∈ tree.active.iter → r ∈ scanned tree := mem_append_right _
  have decodes : ∀ {v}, recordOf key v ∈ tree.active.iter → decodeOrLegacy (versionBytes v) = .ok v := by
    intro v inside
    rw [decodeOrLegacy,if_pos (markedVersion v),decodeEncoded (fits v (held inside))]
  have user : decodeUserKey (recordOf key version).1 = key := decodeInternalKey _ _
  unfold Pruned at pruned
  rw [show decodeOrLegacy (recordOf key version).2 = .ok version from decodes mem,user] at pruned
  obtain ⟨-,below,superseded⟩ := pruned
  refine ⟨below,?_⟩
  obtain ⟨-,all,from'⟩ := latestInFrom tree.active.iter key 0
  have most : version.commitTs ≤ latestIn tree.active.iter key := all _ mem version (decodes mem) user
  have less := lt_of_le_of_ne most (Ne.symm superseded)
  rcases from' with zero | ⟨q,inside,w,decoded,of,same⟩
  · have nothing : latestIn tree.active.iter key = 0 := zero
    rw [nothing] at less
    exact absurd less (not_lt.mpr UInt64.zero_le)
  · obtain ⟨w',rfl⟩ := shape q (held inside) of
    have versions : w' = w := Except.ok.inj ((decodes inside).symm.trans decoded)
    subst versions
    have stamp : w'.commitTs = latestIn tree.active.iter key := same
    exact ⟨w',inside,stamp ▸ less⟩

theorem versionedPruned (versioned : Versioned tree)
    (mem : recordOf key version ∈ tree.active.iter) (pruned : Pruned tree.active.iter m (recordOf key version)) :
    version.commitTs < m ∧ ∃ w, recordOf key w ∈ tree.active.iter ∧ version.commitTs < w.commitTs := by
  refine prunedNewer (fun r stored of => ?_) (fun v held => (versioned.committed held).2) mem pruned
  obtain ⟨other,v,rfl,-⟩ := versioned.shape r stored
  have keys : other = key := by simpa [recordOf] using of
  exact ⟨v,keys ▸ rfl⟩

theorem heldCollected (versioned : Versioned tree) (held : Held tree key version)
    (kept : m ≤ version.commitTs) : Held (collected tree m) key version := by
  refine memCollected.mpr ?_
  rcases mem_append.mp held with file | own
  · exact .inl file
  · exact .inr ⟨own,fun pruned => absurd (versionedPruned versioned own pruned).1 (not_lt.mpr kept)⟩

theorem collectedLatest (versioned : Versioned tree)
    (safe : ∀ v w, (∀ u, Held tree key u → u.commitTs ≤ ts → u.commitTs ≤ v.commitTs) → v.commitTs ≤ ts →
      recordOf key v ∈ tree.active.iter → recordOf key w ∈ tree.active.iter → ¬v.commitTs < w.commitTs)
    (latest : Latest Version.commitTs (fun v => Held tree key v ∧ v.commitTs ≤ ts) found) :
    Latest Version.commitTs (fun v => Held (collected tree m) key v ∧ v.commitTs ≤ ts) found := by
  refine latestPart (fun v both => ⟨collectedSubset both.1,both.2⟩) (fun v both top => ⟨?_,both.2⟩) latest
  refine memCollected.mpr ?_
  rcases mem_append.mp both.1 with file | own
  · exact .inl file
  · refine .inr ⟨own,fun pruned => ?_⟩
    obtain ⟨-,w,beside,newer⟩ := versionedPruned versioned own pruned
    exact safe v w (fun u held seen => top u ⟨held,seen⟩) both.2 own beside newer

end
end NoeDB.LsmVersions
