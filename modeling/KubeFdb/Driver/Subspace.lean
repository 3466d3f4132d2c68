import KubeFdb.Driver.Record

/-!
# subspace と database

driver は一つの directory の下に六つの subspace を持つ。

* `byRevision` — (rev) に header、(rev, offset) に値の chunk
* `byKeyAndRevision` — (key, rev) に索引の tuple。`WriteUUID` はこちらだけが持つ
* `byKeyCurrent` — (key, offset) に現在の値の chunk
* `watch` — 一 byte の counter
* `compactRev` — compaction の watermark
* `latestRev` — `UseSequentialId` のときの最後の番号

鍵は tuple のまま持ち、tuple の順序で並べる。値の byte 列への符号化（`Pack`）は可逆なので、
header と索引の値も tuple のまま持つ。

`version` は、いま始めた transaction の read version である。snapshot はそれまでの commit を
ちょうど含む。
-/

namespace KubeFdb

open Tuple

/-- `chunkSize`。 -/
def chunkSize : Nat := 10000

/-- `maxRecordSize`。 -/
def maxRecordSize : Nat := 2 * 1024 * 1024

/-- `math.MaxInt64`。 -/
def maxInt64 : Nat := 2 ^ 63 - 1

/-- `numChunks`。 -/
def numChunks (size : Nat) : Nat := (size + chunkSize - 1) / chunkSize

/-- 値を `chunkSize` ごとに切り、offset を付けたもの。`writeBlob` と `Replace` の loop が書く順。 -/
def chunksOf (value : Bytes) : List (Nat × Bytes) :=
  (List.range (numChunks value.length)).map
    (fun i => (i * chunkSize, (value.drop (i * chunkSize)).take chunkSize))

/-! ## byRevision -/

/-- `byRevision` の鍵。header は offset を持たず、同じ revision の chunk より前に並ぶ。 -/
abbrev RevKey := Versionstamp ×ₗ WithBot ℕ

def headerKey (rev : Versionstamp) : RevKey := toLex (rev, ⊥)

def chunkKey (rev : Versionstamp) (offset : Nat) : RevKey := toLex (rev, (offset : WithBot ℕ))

def RevKey.rev (k : RevKey) : Versionstamp := (ofLex k).1

/-- `ByRevisionSubspace.recordToTuple` の並び。 -/
structure RevTuple where
  key : Key
  isDelete : Bool
  isCreate : Bool
  lease : Int
  createRevision : Versionstamp
  prevRevision : Versionstamp
  valueSize : Nat
deriving DecidableEq, Repr

inductive RevValue where
  | header (t : RevTuple)
  | chunk (b : Bytes)
deriving DecidableEq, Repr

def RevValue.header? : RevValue → Option RevTuple
  | .header t => some t
  | .chunk _ => none

/-- `fdb.RangeIterator`。残りの entry を持つ。 -/
abbrev RevIterator := List (RevKey × RevValue)

namespace ByRevision

def recordToTuple (r : Record) : RevTuple :=
  { key := r.key, isDelete := r.isDelete, isCreate := r.isCreate, lease := r.lease
    createRevision := r.createRevision, prevRevision := r.prevRevision, valueSize := r.valueSize }

def tupleToRecord (t : RevTuple) : Record :=
  { key := t.key, isDelete := t.isDelete, isCreate := t.isCreate, lease := t.lease
    createRevision := t.createRevision, prevRevision := t.prevRevision, valueSize := t.valueSize
    writeUUID := 0, value := [], latestForKey := false }

/-- `writeBlob`。 -/
def writeBlob (m : OrdMap RevKey RevValue) (rev : Versionstamp) (value : Bytes) :
    OrdMap RevKey RevValue :=
  (chunksOf value).foldl (fun m c => m.set (chunkKey rev c.1) (.chunk c.2)) m

/-- `ByRevisionSubspace.Write`。 -/
def write (m : OrdMap RevKey RevValue) (rev : Versionstamp) (record : Record) :
    OrdMap RevKey RevValue :=
  (writeBlob m rev record.value).set (headerKey rev) (.header (recordToTuple record))

/-- `ByRevisionSubspace.Delete`。header と chunk をまとめて消す。 -/
def delete (m : OrdMap RevKey RevValue) (rev : Versionstamp) : OrdMap RevKey RevValue :=
  m.filter (fun k => decide (k.rev ≠ rev))

/-- Go の `copy(buf[offset:], b)`。 -/
def copyAt (buf : Bytes) (offset : Nat) (b : Bytes) : Bytes :=
  buf.take offset ++ b.take (buf.length - offset) ++ buf.drop (offset + b.length)

/-- `getBlob`。`buf` が埋まるか iterator が尽きるまで chunk を読む。 -/
def getBlob : Bytes → Nat → RevIterator → Except Err (Bytes × RevIterator)
  | buf, _, [] => .ok (buf, [])
  | buf, offset, e :: rest =>
    if offset = buf.length then .ok (buf, e :: rest)
    else
      match e.2 with
      | .chunk b => getBlob (copyAt buf offset b) (offset + b.length) rest
      | .header _ => .error .parseChunkAsHeader

/-- `GetFromIterator`。header を読み（`ParseKV`）、`ValueSize` 分の chunk を読む。 -/
def getFromIterator : RevIterator → Except Err (Option RevRecord × RevIterator)
  | [] => .ok (none, [])
  | (k, .header t) :: rest =>
    match getBlob (List.replicate t.valueSize 0) 0 rest with
    | .error e => .error e
    | .ok (buf, rest') => .ok (some ⟨k.rev, { tupleToRecord t with value := buf }⟩, rest')
  | (_, .chunk _) :: _ => .error .parseChunkAsHeader

/-- `GetIterator`。revision `rev` の entry だけを読む。 -/
def getIterator (m : OrdMap RevKey RevValue) (rev : Versionstamp) : RevIterator :=
  m.entries.filter (fun e => decide (e.1.rev = rev))

/-- `ByRevisionSubspace.Get`。 -/
def get (m : OrdMap RevKey RevValue) (rev : Versionstamp) : Except Err (Option Record) :=
  match getFromIterator (getIterator m rev) with
  | .error e => .error e
  | .ok (r, _) => .ok (r.map RevRecord.record)

end ByRevision

/-! ## byKeyAndRevision -/

abbrev IndexKey := Key ×ₗ Versionstamp

def indexKey (key : Key) (rev : Versionstamp) : IndexKey := toLex (key, rev)

def IndexKey.key (k : IndexKey) : Key := (ofLex k).1

def IndexKey.rev (k : IndexKey) : Versionstamp := (ofLex k).2

/-- `ByKeyAndRevisionSubspace.recordToTuple` の並び。 -/
structure IndexTuple where
  isDelete : Bool
  isCreate : Bool
  lease : Int
  createRevision : Versionstamp
  prevRevision : Versionstamp
  valueSize : Nat
  writeUUID : UUID
deriving DecidableEq, Repr

abbrev IndexIterator := List (IndexKey × IndexTuple)

namespace ByKeyAndRevision

def recordToTuple (r : Record) : IndexTuple :=
  { isDelete := r.isDelete, isCreate := r.isCreate, lease := r.lease
    createRevision := r.createRevision, prevRevision := r.prevRevision, valueSize := r.valueSize
    writeUUID := r.writeUUID }

/-- `ByKeyAndRevisionSubspace.Write`。 -/
def write (m : OrdMap IndexKey IndexTuple) (key : Key) (rev : Versionstamp) (record : Record) :
    OrdMap IndexKey IndexTuple :=
  m.set (indexKey key rev) (recordToTuple record)

/-- `ByKeyAndRevisionSubspace.Delete`。 -/
def delete (m : OrdMap IndexKey IndexTuple) (key : Key) (rev : Versionstamp) :
    OrdMap IndexKey IndexTuple :=
  m.filter (fun k => decide (k ≠ indexKey key rev))

/-- `parseKV`。`ByKeyAndRevisionRecord` は鍵と revision の組に record を添えたもので、
record の `Key` も埋めるから `RevRecord` で表せる。値は索引に入っていないので空のままである。 -/
def parseKV (e : IndexKey × IndexTuple) : RevRecord :=
  { rev := e.1.rev
    record :=
      { key := e.1.key, isDelete := e.2.isDelete, isCreate := e.2.isCreate, lease := e.2.lease
        createRevision := e.2.createRevision, prevRevision := e.2.prevRevision
        valueSize := e.2.valueSize, writeUUID := e.2.writeUUID, value := [],
        latestForKey := false } }

end ByKeyAndRevision

/-! ## byKeyCurrent -/

abbrev ChunkKey := Key ×ₗ ℕ

def currentKey (key : Key) (offset : Nat) : ChunkKey := toLex (key, offset)

def ChunkKey.key (k : ChunkKey) : Key := (ofLex k).1

def ChunkKey.offset (k : ChunkKey) : Nat := (ofLex k).2

namespace ByKeyCurrent

/-- 鍵の byte 列。 -/
def packChunkKey (k : ChunkKey) : Bytes := packString k.key ++ packInt k.offset

/-- `tr.ClearRange`。端点は byte 列で比べる。 -/
def clearRange (m : OrdMap ChunkKey Bytes) (begin_ end_ : Bytes) : OrdMap ChunkKey Bytes :=
  m.filter (fun k => !(decide (begin_ ≤ packChunkKey k) && decide (packChunkKey k < end_)))

/-- `ByKeyCurrentSubspace.Clear`。`fdb.PrefixRange` の範囲には、NUL を足して延ばした鍵の chunk も入る。 -/
def clear (m : OrdMap ChunkKey Bytes) (key : Key) : OrdMap ChunkKey Bytes :=
  clearRange m (packString key) ((strinc (packString key)).getD [])

/-- `ByKeyCurrentSubspace.Replace`。前の大きさが分からなければ（負）全部を消し、
分かっていれば chunk の数が減るときだけ後ろの chunk を消す。 -/
def replace (m : OrdMap ChunkKey Bytes) (key : Key) (value : Bytes) (prevSize : Int) :
    OrdMap ChunkKey Bytes :=
  let m1 :=
    if prevSize < 0 then clear m key
    else if numChunks value.length < numChunks prevSize.toNat then
      clearRange m (packString key ++ packInt (numChunks value.length * chunkSize))
        ((strinc (packString key)).getD [])
    else m
  (chunksOf value).foldl (fun m c => m.set (currentKey key c.1) c.2) m1

/-- `RangeForKeys` の範囲の entry。端点は byte 列で比べる。 -/
def rangeForKeys (m : OrdMap ChunkKey Bytes) (firstKey lastKey : Key) : List (ChunkKey × Bytes) :=
  m.entries.filter (fun e => decide (packString firstKey ≤ packChunkKey e.1) &&
    decide (packChunkKey e.1 < (strinc (packString lastKey)).getD []))

end ByKeyCurrent

/-! ## database -/

structure Db where
  version : Nat
  byRevision : OrdMap RevKey RevValue
  byKeyAndRevision : OrdMap IndexKey IndexTuple
  byKeyCurrent : OrdMap ChunkKey Bytes
  watch : Byte
  compactRev : Option Versionstamp
  latestRev : Option Int
deriving DecidableEq

namespace Db

/-- 空の directory。read version は正である。 -/
def empty : Db :=
  { version := 1, byRevision := .empty, byKeyAndRevision := .empty, byKeyCurrent := .empty
    watch := 0, compactRev := none, latestRev := none }

/-- `CompactRevisionSubspace.Get`。 -/
def getCompactRev (db : Db) : Versionstamp := db.compactRev.getD (int64ToVersionstamp 0)

/-- `RevisionSubspace.GetLatestRev`。 -/
def getLatestRev (cfg : Config) (db : Db) : Int :=
  if cfg.useSequentialId then db.latestRev.getD 1 else db.version

/-- `RevisionSubspace.IncrementAndGet`。`v` はこの transaction の commit version で、
versionstamp の revision は commit のときに決まる。 -/
def incrementAndGet (cfg : Config) (v : Nat) (db : Db) : Versionstamp × Db :=
  if cfg.useSequentialId then
    let id := db.latestRev.getD 1 + 1
    (int64ToVersionstamp id, { db with latestRev := some id })
  else (commitStamp v, db)

/-- `FDB.getLast`。鍵の下の entry を逆順に一つ読む。 -/
def getLast (db : Db) (key : Key) : Option RevRecord :=
  ((db.byKeyAndRevision.entries.filter (fun e => decide (e.1.key = key))).getLast?).map
    ByKeyAndRevision.parseKV

/-- commit version `v` が使えること。version は進むだけで、int64 に収まる。 -/
def CanCommit (cfg : Config) (v : Nat) (db : Db) : Prop :=
  db.version < v ∧ v < 2 ^ 63 ∧ (cfg.useSequentialId = true → db.latestRev.getD 1 + 1 < 2 ^ 63)

instance (cfg : Config) (v : Nat) (db : Db) : Decidable (db.CanCommit cfg v) :=
  inferInstanceAs (Decidable (_ ∧ _ ∧ _))

/-- commit した database は commit version の snapshot から見える。 -/
def commit (v : Nat) (db : Db) : Db := { db with version := v }

end Db

end KubeFdb
