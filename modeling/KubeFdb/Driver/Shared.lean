import KubeFdb.Lib.Heap
import KubeFdb.Driver.Read
import KubeFdb.Driver.Retry

/-!
# 共有される record

`fdb_read.go` の `recordCollector` と `listCollector` は `*Record` を持つ。`startBatch` は `currentRecord` の
pointer を `batchCurrentRecord` に写すので、batch の間に下ろした印や入れた値は、batch が失敗しても
持ち越した record に残る。

`Driver/Read` の collector は record を値で持つ。ここでは同じ collector を、record を heap に置き、
collector は番地を持つ形で書く。書き換えは次の三つである。

* `recordCollector.next` が、読んだ record の印を立てる
* `recordCollector.next` が、候補の record の印を下ろす
* `listCollector.endBatch` が、集めた record に値を入れる

`fetchLegacy` は新しい record を作り、`batchRecords` の中の pointer を差し替える。
-/

namespace KubeFdb

open Tuple

/-- `ByKeyAndRevisionRecord` と `RevRecord`。`Record` は pointer である。 -/
structure RecordRef where
  rev : Versionstamp
  record : Nat
deriving DecidableEq

def RecordRef.load (h : Heap Record) (r : RecordRef) : RevRecord := ⟨r.rev, h.cell r.record⟩

def Record.setLatestForKey (b : Bool) (r : Record) : Record := { r with latestForKey := b }

namespace Shared

/-! ## 内側の collector -/

/-- `Processor[*ByKeyAndRevisionRecord]`。`endFault` は、`endBatch` が `i` 番目の場所で失敗したときの
collector と heap である。 -/
structure InnerProcessor (σ : Type) where
  startBatch : σ → σ
  next : σ → RecordRef → σ × Bool
  endBatch : σ → Heap Record → Db → σ × Heap Record × Except Err Unit
  endFault : σ → Heap Record → Db → Nat → σ × Heap Record
  postBatch : σ → σ

/-- `countCollector`。 -/
def countProcessor : InnerProcessor CountCollector where
  startBatch c := { c with batchCount := 0 }
  next c _ := ({ c with batchCount := c.batchCount + 1 }, true)
  endBatch c h _ := (c, h, .ok ())
  endFault c h _ _ := (c, h)
  postBatch c := { c with totalCount := c.totalCount + c.batchCount }

structure ListCollector where
  limit : Int
  keysOnly : Bool
  records : List RecordRef
  batchRecords : List RecordRef
deriving DecidableEq

/-- `newListCollector`。`make` が panic する `limit` では、ここまで来ない（`capacityFits`）。 -/
def newListCollector (limit : Int) (keysOnly : Bool) : ListCollector := ⟨limit, keysOnly, [], []⟩

namespace ListCollector

/-- `listCollector.needMore`。 -/
def needMore (c : ListCollector) : Bool :=
  decide (c.limit = 0) || decide (((c.batchRecords.length + c.records.length : Nat) : Int) < c.limit)

/-- `listCollector.next`。 -/
def next (c : ListCollector) (record : RecordRef) : ListCollector × Bool :=
  let c := { c with batchRecords := c.batchRecords ++ [record] }
  (c, c.needMore)

/-- `byRevision` から読む record。空でなく、buffer が `ValueSize` に足りない。 -/
def isLegacy (buf : Bytes) (r : Record) : Bool :=
  decide (r.valueSize ≠ 0) && decide (buf.length ≠ r.valueSize)

def fillRecord (buf : Bytes) (r : Record) : Record :=
  if r.valueSize = 0 then { r with value := [] }
  else if buf.length = r.valueSize then { r with value := buf }
  else r

/-- `endBatch` の、値を入れる loop。 -/
def fill : Heap Record → List (RecordRef × Bytes) → Heap Record
  | h, [] => h
  | h, (r, buf) :: rest => fill (h.modify r.record (fillRecord buf)) rest

/-- `listCollector.fetchLegacy`。読んだ record で `batchRecords` の pointer を差し替える。error になっても、
そこまでの差し替えは残る。 -/
def fetchLegacy (db : Db) :
    Heap Record → List (RecordRef × Bytes) → List RecordRef × Heap Record × Except Err Unit
  | h, [] => ([], h, .ok ())
  | h, (r, buf) :: rest =>
    if isLegacy buf (h.cell r.record) then
      match ByRevision.getFromIterator (ByRevision.getIterator db.byRevision r.rev) with
      | .error e => (r :: rest.map Prod.fst, h, .error e)
      | .ok (none, _) => (r :: rest.map Prod.fst, h, .error .noRecordsInByRevIterator)
      | .ok (some r', _) =>
        let out := fetchLegacy db (h.alloc r'.record) rest
        (⟨r'.rev, h.size⟩ :: out.1, out.2)
    else
      let out := fetchLegacy db h rest
      (r :: out.1, out.2)

/-- merge-join で集めた buffer。 -/
def joinBufs (c : ListCollector) (h : Heap Record) (db : Db) : List (RecordRef × Bytes) :=
  let recs := c.batchRecords.map (RecordRef.load h)
  match recs.head?, recs.getLast? with
  | some first, some last =>
    let chunks := ByKeyCurrent.rangeForKeys db.byKeyCurrent first.key last.key
    c.batchRecords.zip
      (KubeFdb.ListCollector.mergeJoin recs chunks 0 (List.replicate recs.length []))
  | _, _ => []

/-- `listCollector.endBatch`。 -/
def endBatch (c : ListCollector) (h : Heap Record) (db : Db) :
    ListCollector × Heap Record × Except Err Unit :=
  if c.keysOnly then (c, h, .ok ())
  else
    let bufs := c.joinBufs h db
    let out := fetchLegacy db (fill h bufs) bufs
    ({ c with batchRecords := out.1 }, out.2)

/-- `endBatch` の失敗。merge-join の間なら何も書き換えていない。`fetchLegacy` の間なら、値はすべて入り、
先頭の `i` 個までは差し替わっている。 -/
def endFault (c : ListCollector) (h : Heap Record) (db : Db) : Nat → ListCollector × Heap Record
  | 0 => (c, h)
  | i + 1 =>
    if c.keysOnly then (c, h)
    else
      let bufs := c.joinBufs h db
      let out := fetchLegacy db (fill h bufs) (bufs.take i)
      ({ c with batchRecords := out.1 ++ (bufs.drop i).map Prod.fst }, out.2.1)

end ListCollector

/-- `listCollector`。 -/
def listProcessor : InnerProcessor ListCollector where
  startBatch c := { c with batchRecords := [] }
  next := ListCollector.next
  endBatch := ListCollector.endBatch
  endFault := ListCollector.endFault
  postBatch c := { c with records := c.records ++ c.batchRecords }

/-! ## recordCollector -/

structure RecordCollector (σ : Type) where
  maxRevision : Int
  inner : σ
  heap : Heap Record
  currentRecord : Option RecordRef
  batchCurrentRecord : Option RecordRef
  firstRev : Int
  rev : Int
  batchRev : Int

/-- heap は空から始める。 -/
def newRecordCollector {σ : Type} (maxRevision : Int) (inner : σ) : RecordCollector σ :=
  ⟨maxRevision, inner,
    .empty ⟨[], false, false, 0, dummyVersionstamp, dummyVersionstamp, 0, 0, [], false⟩,
    none, none, 0, 0, 0⟩

namespace RecordCollector

variable {σ : Type} (p : InnerProcessor σ)

/-- 鍵が変わったところで、前の鍵の候補を内側に渡す。 -/
def flush (c : RecordCollector σ) (key : Key) : RecordCollector σ × Bool :=
  match c.batchCurrentRecord with
  | none => (c, true)
  | some cur =>
    if (cur.load c.heap).key ≠ key then
      if !(cur.load c.heap).record.isDelete then
        let (inner, innerNeedMore) := p.next c.inner cur
        ({ c with inner := inner, batchCurrentRecord := none }, innerNeedMore)
      else ({ c with batchCurrentRecord := none }, true)
    else (c, true)

/-- 読む revision の窓。 -/
def inWindow (c : RecordCollector σ) (rev : Versionstamp) : Bool :=
  decide (c.maxRevision = 0 ∨ versionstampToInt64 rev ≤ c.maxRevision) &&
    decide (c.firstRev = 0 ∨ versionstampToInt64 rev ≤ c.firstRev)

/-- 窓の中の record は印を立てて候補にする。窓の外の新しい record は候補の印を下ろす。 -/
def accept (c : RecordCollector σ) (r : RecordRef) : RecordCollector σ :=
  if c.inWindow r.rev then
    { c with
      heap := c.heap.modify r.record (Record.setLatestForKey true)
      batchCurrentRecord := some r }
  else
    match c.batchCurrentRecord with
    | none => c
    | some cur =>
      if (cur.load c.heap).key = (r.load c.heap).key then
        { c with heap := c.heap.modify cur.record (Record.setLatestForKey false) }
      else c

/-- `recordCollector.next`。読んだ record は新しい番地に置く。 -/
def next (c : RecordCollector σ) (tr : Db) (it : IndexIterator) :
    RecordCollector σ × Db × Except Err (IndexIterator × Option IndexKey × Bool) :=
  match it with
  | [] => (c, tr, .ok ([], none, false))
  | e :: it' =>
    let r := ByKeyAndRevision.parseKV e
    let (c1, needMore) := { c with heap := c.heap.alloc r.record }.flush p r.key
    (c1.accept ⟨r.rev, c.heap.size⟩, tr, .ok (it', some (indexKey r.key r.rev), needMore))

/-- 最後の batch では、残った候補も内側に渡す。 -/
def deliverLast (c : RecordCollector σ) (isLast : Bool) : RecordCollector σ :=
  match c.batchCurrentRecord with
  | none => c
  | some cur =>
    if isLast && !(cur.load c.heap).record.isDelete then { c with inner := (p.next c.inner cur).1 }
    else c

/-- `recordCollector.endBatch`。 -/
def endBatch (cfg : Config) (c : RecordCollector σ) (tr : Db) (isLast : Bool) :
    RecordCollector σ × Db × Except Err Unit :=
  let c1 := c.deliverLast p isLast
  match p.endBatch c1.inner c1.heap tr with
  | (inner, heap, .error e) => ({ c1 with inner := inner, heap := heap }, tr, .error e)
  | (inner, heap, .ok ()) =>
    let c2 := { c1 with inner := inner, heap := heap, batchRev := tr.getLatestRev cfg }
    if 0 < c2.maxRevision ∧ c2.maxRevision < versionstampToInt64 tr.getCompactRev then
      (c2, tr, .error .compacted)
    else (c2, tr, .ok ())

/-- `endBatch` の失敗。最新の revision を読むところ、watermark を読むところ、内側の `endBatch` の順に並べる。 -/
def endFault (cfg : Config) (c : RecordCollector σ) (tr : Db) (isLast : Bool) :
    Nat → RecordCollector σ
  | 0 =>
    let c1 := c.deliverLast p isLast
    let out := p.endBatch c1.inner c1.heap tr
    { c1 with inner := out.1, heap := out.2.1 }
  | 1 => (c.endBatch p cfg tr isLast).1
  | i + 2 =>
    let c1 := c.deliverLast p isLast
    let out := p.endFault c1.inner c1.heap tr i
    { c1 with inner := out.1, heap := out.2 }

/-- `recordCollector` を `processRange` に渡す形。 -/
def faulty (cfg : Config) : Faulty (RecordCollector σ) IndexKey IndexTuple where
  startBatch c :=
    { c with inner := p.startBatch c.inner, batchCurrentRecord := c.currentRecord, batchRev := 0 }
  next := next p
  endBatch := endBatch p cfg
  postBatch c :=
    { c with
      inner := p.postBatch c.inner
      firstRev := if c.firstRev = 0 then c.batchRev else c.firstRev
      rev := c.batchRev
      currentRecord := c.batchCurrentRecord }
  endFault := endFault p cfg

end RecordCollector

end Shared

end KubeFdb
