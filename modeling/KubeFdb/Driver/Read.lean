import KubeFdb.Driver.Batch

/-!
# 読み出し

`fdb_read.go`。`List`、`Get`、`Count` は索引を鍵の順に走査し、鍵ごとに窓の中の最新の record を
選ぶ（`recordCollector`）。選ばれた record は内側の collector が受け取る。

* `listCollector` — record を集め、batch の終わりに値を取りに行く
* `countCollector` — 数える

値は `byKeyCurrent` との merge-join で取り、取れなかったものは `byRevision` から読む
（`fetchLegacy`）。
-/

namespace KubeFdb

open Tuple

/-! ## 内側の collector -/

/-- `Processor[*ByKeyAndRevisionRecord]`。`next` は error を返さない。 -/
structure InnerProcessor (σ : Type) where
  startBatch : σ → σ
  next : σ → RevRecord → σ × Bool
  endBatch : σ → Db → σ × Except Err Unit
  postBatch : σ → σ

structure CountCollector where
  totalCount : Nat
  batchCount : Nat
deriving DecidableEq

/-- `countCollector`。 -/
def countProcessor : InnerProcessor CountCollector where
  startBatch c := { c with batchCount := 0 }
  next c _ := ({ c with batchCount := c.batchCount + 1 }, true)
  endBatch c _ := (c, .ok ())
  postBatch c := { c with totalCount := c.totalCount + c.batchCount }

structure ListCollector where
  limit : Int
  keysOnly : Bool
  records : List RevRecord
  batchRecords : List RevRecord
deriving DecidableEq

/-- slice 一つの大きさの上限。64 bit の Go の `maxAlloc` である。 -/
def maxAlloc : Int := 2 ^ 48

/-- `newListCollector` が `make` に渡す容量。 -/
def listCapacity (limit : Int) : Int := if limit = 0 then 100 else limit

/-- `newListCollector` の `make` が panic しないこと。pointer は 8 byte である。 -/
def capacityFits (limit : Int) : Bool :=
  decide (0 ≤ listCapacity limit) && decide (8 * listCapacity limit ≤ maxAlloc)

/-- `newListCollector`。`make` が panic するかどうかは、`limit` を受け取る `list` が調べる。 -/
def newListCollector (limit : Int) (keysOnly : Bool) : ListCollector := ⟨limit, keysOnly, [], []⟩

namespace ListCollector

/-- `listCollector.needMore`。 -/
def needMore (c : ListCollector) : Bool :=
  decide (c.limit = 0) || decide (((c.batchRecords.length + c.records.length : Nat) : Int) < c.limit)

/-- `listCollector.next`。 -/
def next (c : ListCollector) (record : RevRecord) : ListCollector × Bool :=
  let c := { c with batchRecords := c.batchRecords ++ [record] }
  (c, c.needMore)

/-- `endBatch` の merge-join。`idx` は chunk の鍵に追い付くまで進み、戻らない。 -/
def mergeJoin (recs : List RevRecord) :
    List (ChunkKey × Bytes) → Nat → List Bytes → List Bytes
  | [], _, bufs => bufs
  | chunk :: rest, idx, bufs =>
    let idx := idx + ((recs.drop idx).takeWhile (fun r => decide (r.key < chunk.1.key))).length
    match recs[idx]? with
    | none => bufs
    | some r =>
      if r.key = chunk.1.key ∧ r.record.latestForKey then
        mergeJoin recs rest idx (bufs.modify idx (· ++ chunk.2))
      else mergeJoin recs rest idx bufs

/-- 一つの record の値を決める。buffer が `ValueSize` に足りなければ `byRevision` から読む。 -/
def resolve (db : Db) (r : RevRecord) (buf : Bytes) : Except Err RevRecord :=
  if r.record.valueSize = 0 then .ok { r with record := { r.record with value := [] } }
  else if buf.length = r.record.valueSize then
    .ok { r with record := { r.record with value := buf } }
  else
    match ByRevision.getFromIterator (ByRevision.getIterator db.byRevision r.rev) with
    | .error e => .error e
    | .ok (none, _) => .error .noRecordsInByRevIterator
    | .ok (some r', _) => .ok r'

/-- record ごとに `resolve` する。`fetchLegacy` の pipeline は読む順を変えない。 -/
def resolveAll (db : Db) : List (RevRecord × Bytes) → Except Err (List RevRecord)
  | [] => .ok []
  | (r, buf) :: rest =>
    match resolve db r buf with
    | .error e => .error e
    | .ok r' =>
      match resolveAll db rest with
      | .error e => .error e
      | .ok rs => .ok (r' :: rs)

/-- `listCollector.endBatch`。 -/
def endBatch (c : ListCollector) (db : Db) : ListCollector × Except Err Unit :=
  if c.keysOnly then (c, .ok ())
  else
    match c.batchRecords.head?, c.batchRecords.getLast? with
    | some first, some last =>
      let chunks := ByKeyCurrent.rangeForKeys db.byKeyCurrent first.key last.key
      let bufs := mergeJoin c.batchRecords chunks 0 (List.replicate c.batchRecords.length [])
      match resolveAll db (c.batchRecords.zip bufs) with
      | .error e => (c, .error e)
      | .ok rs => ({ c with batchRecords := rs }, .ok ())
    | _, _ => (c, .ok ())

end ListCollector

/-- `listCollector`。 -/
def listProcessor : InnerProcessor ListCollector where
  startBatch c := { c with batchRecords := [] }
  next := ListCollector.next
  endBatch := ListCollector.endBatch
  postBatch c := { c with records := c.records ++ c.batchRecords }

/-! ## recordCollector -/

structure RecordCollector (σ : Type) where
  maxRevision : Int
  inner : σ
  currentRecord : Option RevRecord
  batchCurrentRecord : Option RevRecord
  firstRev : Int
  rev : Int
  batchRev : Int
deriving DecidableEq

def newRecordCollector {σ : Type} (maxRevision : Int) (inner : σ) : RecordCollector σ :=
  ⟨maxRevision, inner, none, none, 0, 0, 0⟩

namespace RecordCollector

variable {σ : Type} (p : InnerProcessor σ)

/-- 鍵が変わったところで、前の鍵の候補を内側に渡す。 -/
def flush (c : RecordCollector σ) (key : Key) : RecordCollector σ × Bool :=
  match c.batchCurrentRecord with
  | none => (c, true)
  | some cur =>
    if cur.key ≠ key then
      if !cur.record.isDelete then
        let (inner, innerNeedMore) := p.next c.inner cur
        ({ c with inner := inner, batchCurrentRecord := none }, innerNeedMore)
      else ({ c with batchCurrentRecord := none }, true)
    else (c, true)

/-- 読む revision の窓。`firstRev` は最初の batch の後で決まる。 -/
def inWindow (c : RecordCollector σ) (rev : Versionstamp) : Bool :=
  decide (c.maxRevision = 0 ∨ versionstampToInt64 rev ≤ c.maxRevision) &&
    decide (c.firstRev = 0 ∨ versionstampToInt64 rev ≤ c.firstRev)

/-- 窓の中の record は候補になる。窓の外の新しい record は候補の印を下ろす。 -/
def accept (c : RecordCollector σ) (r : RevRecord) : RecordCollector σ :=
  if c.inWindow r.rev then
    { c with
      batchCurrentRecord := some { r with record := { r.record with latestForKey := true } } }
  else
    match c.batchCurrentRecord with
    | none => c
    | some cur =>
      if cur.key = r.key then
        { c with
          batchCurrentRecord := some { cur with record := { cur.record with latestForKey := false } } }
      else c

/-- `recordCollector.next`。 -/
def next (c : RecordCollector σ) (tr : Db) (it : IndexIterator) :
    RecordCollector σ × Db × Except Err (IndexIterator × Option IndexKey × Bool) :=
  match it with
  | [] => (c, tr, .ok ([], none, false))
  | e :: it' =>
    let r := ByKeyAndRevision.parseKV e
    let (c1, needMore) := c.flush p r.key
    (c1.accept r, tr, .ok (it', some (indexKey r.key r.rev), needMore))

/-- 最後の batch では、残った候補も内側に渡す。 -/
def deliverLast (c : RecordCollector σ) (isLast : Bool) : RecordCollector σ :=
  match c.batchCurrentRecord with
  | none => c
  | some cur =>
    if isLast && !cur.record.isDelete then { c with inner := (p.next c.inner cur).1 } else c

/-- `recordCollector.endBatch`。 -/
def endBatch (cfg : Config) (c : RecordCollector σ) (tr : Db) (isLast : Bool) :
    RecordCollector σ × Db × Except Err Unit :=
  let c1 := c.deliverLast p isLast
  match p.endBatch c1.inner tr with
  | (inner, .error e) => ({ c1 with inner := inner }, tr, .error e)
  | (inner, .ok ()) =>
    let c2 := { c1 with inner := inner, batchRev := tr.getLatestRev cfg }
    if 0 < c2.maxRevision ∧ c2.maxRevision < versionstampToInt64 tr.getCompactRev then
      (c2, tr, .error .compacted)
    else (c2, tr, .ok ())

/-- `recordCollector` を `processRange` に渡す形。 -/
def processor (cfg : Config) : Processor (RecordCollector σ) IndexKey IndexTuple where
  startBatch c :=
    { c with inner := p.startBatch c.inner, batchCurrentRecord := c.currentRecord, batchRev := 0 }
  next := next p
  endBatch := endBatch p cfg
  postBatch c :=
    { c with
      inner := p.postBatch c.inner
      firstRev := if c.firstRev = 0 then c.batchRev else c.firstRev
      rev := c.batchRev
      currentRecord := c.batchCurrentRecord }

end RecordCollector

/-! ## listWithCollector -/

/-- `strings.HasSuffix(prefix, "/")`。 -/
def hasSlashSuffix (s : Key) : Bool := decide (s.getLast? = some 0x2F)

/-- `listWithCollector` が作る範囲の両端。 -/
def listRange (prefix_ startKey : Key) : Except Err (Bytes × Bytes) :=
  if hasSlashSuffix prefix_ then
    let packedStartKey := packString startKey
    let begin_ :=
      if prefix_ ≠ startKey then (strinc packedStartKey).getD [] else packedStartKey
    .ok (begin_, (strinc (packString prefix_).dropLast).getD [])
  else if startKey ≠ prefix_ then .error .prefixNotStartKey
  else .ok (packString prefix_ ++ [0], packString prefix_ ++ [0xFF])

/-- 索引の鍵の byte 列。 -/
def packIndexKey (k : IndexKey) : Bytes := packString k.key ++ packVersionstamp k.rev.toNat

/-- 両端の間にある索引の entry。 -/
def indexRange (range : Bytes × Bytes) : RangeOf IndexKey IndexTuple := fun db begin_ =>
  entriesAfter begin_
    (db.byKeyAndRevision.entries.filter
      (fun e => decide (range.1 ≤ packIndexKey e.1) && decide (packIndexKey e.1 < range.2)))

abbrev ListCall (σ : Type) := RangeCall (RecordCollector σ) IndexKey

/-- 走査を終えた `listWithCollector` の結果。 -/
def listResult {σ : Type} (maxRevision : Int) (call : ListCall σ) : Except Err (Int × σ) :=
  match call.status with
  | .failed e => .error e
  | _ =>
    if call.collector.firstRev < maxRevision then .error .futureRev
    else .ok (call.collector.firstRev, call.collector.inner)

/-- ほかの transaction が挟まらない `listWithCollector`。 -/
def listWithCollector {σ : Type} (cfg : Config) (p : InnerProcessor σ) (inner : σ)
    (prefix_ startKey : Key) (maxRevision : Int) (splits : Nat → Nat) (db : Db) :
    Except Err (Int × σ) :=
  match listRange prefix_ startKey with
  | .error e => .error e
  | .ok range =>
    listResult maxRevision (processRange (RecordCollector.processor p cfg) (indexRange range) splits
      (db.byKeyAndRevision.entries.length + 1) 0 (.start (newRecordCollector maxRevision inner)) db).1

/-- `listKeyValue` が返す値。 -/
def toKeyValues (cfg : Config) (records : List RevRecord) : List KeyValue :=
  records.map (fun r => (revRecordToEvent cfg r).kv)

/-- `FDB.List`。 -/
def list (cfg : Config) (prefix_ startKey : Key) (limit revision : Int) (keysOnly : Bool)
    (splits : Nat → Nat) (db : Db) : Except Err (Int × List KeyValue) :=
  if capacityFits limit then
    match listWithCollector cfg listProcessor (newListCollector limit keysOnly) prefix_ startKey
        revision splits db with
    | .error e => .error e
    | .ok (rev, c) => .ok (rev, toKeyValues cfg c.records)
  else .error .capOutOfRange

/-- `FDB.Get`。 -/
def get (cfg : Config) (key rangeEnd : Key) (revision : Int) (keysOnly : Bool)
    (splits : Nat → Nat) (db : Db) : Except Err (Int × Option KeyValue) :=
  if rangeEnd ≠ [] then .error .invalidRangeEnd
  else
    match list cfg key key 1 revision keysOnly splits db with
    | .error e => .error e
    | .ok (rev, kvs) => .ok (rev, kvs.head?)

/-- `FDB.Count` の走査。 -/
def countScan (cfg : Config) (prefix_ startKey : Key) (revision : Int) (splits : Nat → Nat)
    (db : Db) : Except Err (Int × Nat) :=
  match listWithCollector cfg countProcessor ⟨0, 0⟩ prefix_ startKey revision splits db with
  | .error e => .error e
  | .ok (rev, c) => .ok (rev, c.totalCount)

end KubeFdb
