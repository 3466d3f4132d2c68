import KubeFdb.Driver.Batch

/-!
# log の読み出し

`fdb_watch.go` の `afterCollector`、`afterAll`、`afterBatch`。`byRevision` を指定した revision の
後ろから読み、record を event にする。

* `afterAll` — watch の最初の読み出し。`limit` はなく、compaction を調べる
* `afterBatch` — poll の読み出し。`maxBatchSize` までを一つの transaction で読み、
  compaction は調べない
-/

namespace KubeFdb

open Tuple

/-- `doesEventHavePrefix`。 -/
def doesEventHavePrefix (key prefix_ : Key) : Bool :=
  (decide (prefix_.getLast? = some 0x2F) && prefix_.isPrefixOf key) || decide (key = prefix_)

/-- `afterCollector` の入力。 -/
structure AfterParams where
  limit : Nat
  checkCompacted : Bool
  minRevision : Int
  takeKey : Key → Bool

/-- `afterCollector` の出力。 -/
structure AfterCollector where
  batchEvents : List Event
  events : List Event
  compactRevision : Int
  batchCompactRev : Int
  latestRev : Int
  batchLatestRev : Int
deriving DecidableEq

def newAfterCollector : AfterCollector := ⟨[], [], 0, 0, 0, 0⟩

namespace AfterCollector

variable (cfg : Config) (params : AfterParams)

/-- `afterCollector.needMore`。 -/
def needMore (c : AfterCollector) : Bool :=
  decide (params.limit = 0) || decide (c.batchEvents.length + c.events.length < params.limit)

/-- record を event にする。前の record が残っていれば `PrevKV` に入れる。 -/
def eventOf (tr : Db) (r : RevRecord) : Except Err Event :=
  let event := revRecordToEvent cfg r
  if r.record.prevRevision ≠ dummyVersionstamp then
    match ByRevision.get tr.byRevision r.record.prevRevision with
    | .error e => .error e
    | .ok prevRecord =>
      .ok { event with
        prevKV := prevRecord.map (fun pr => (revRecordToEvent cfg ⟨r.record.prevRevision, pr⟩).kv) }
  else .ok event

/-- `afterCollector.next`。 -/
def next (c : AfterCollector) (tr : Db) (it : RevIterator) :
    AfterCollector × Db × Except Err (RevIterator × Option RevKey × Bool) :=
  match ByRevision.getFromIterator it with
  | .error e => (c, tr, .error e)
  | .ok (none, it') => (c, tr, .ok (it', none, false))
  | .ok (some r, it') =>
    if c.latestRev ≠ 0 ∧ c.latestRev < versionstampToInt64 r.rev then
      (c, tr, .ok (it', some (chunkKey r.rev maxInt64), false))
    else if params.takeKey r.key then
      match eventOf cfg tr r with
      | .error e => (c, tr, .error e)
      | .ok event =>
        let c := { c with batchEvents := c.batchEvents ++ [event] }
        (c, tr, .ok (it', some (chunkKey r.rev maxInt64), c.needMore params))
    else (c, tr, .ok (it', some (chunkKey r.rev maxInt64), c.needMore params))

/-- `afterCollector.endBatch`。 -/
def endBatch (c : AfterCollector) (tr : Db) (_isLast : Bool) :
    AfterCollector × Db × Except Err Unit :=
  let c1 := if c.latestRev = 0 then { c with batchLatestRev := tr.getLatestRev cfg } else c
  if params.checkCompacted ∧ 0 < params.minRevision ∧
      params.minRevision < versionstampToInt64 tr.getCompactRev then
    ({ c1 with batchCompactRev := versionstampToInt64 tr.getCompactRev }, tr, .error .compacted)
  else (c1, tr, .ok ())

/-- `afterCollector` を `processRange` に渡す形。 -/
def processor : Processor AfterCollector RevKey RevValue where
  startBatch c := { c with batchEvents := [], batchLatestRev := 0, batchCompactRev := 0 }
  next := next cfg params
  endBatch := endBatch cfg params
  postBatch c :=
    { c with
      events := c.events ++ c.batchEvents
      latestRev := c.batchLatestRev
      compactRevision := c.batchCompactRev }

end AfterCollector

/-- `afterRevisionSelector` の範囲。 -/
def afterRange (minRevision : Int) : RangeOf RevKey RevValue := fun db begin_ =>
  entriesAfter begin_
    (db.byRevision.entries.filter
      (fun e => decide (chunkKey (int64ToVersionstamp minRevision) maxInt64 < e.1)))

abbrev AfterCall := RangeCall AfterCollector RevKey

/-- `afterAll` の入力。 -/
def afterAllParams (minRevision : Int) (takeKey : Key → Bool) : AfterParams :=
  ⟨0, true, minRevision, takeKey⟩

/-- `afterBatch` の入力。 -/
def afterBatchParams (cfg : Config) (minRevision : Int) (takeKey : Key → Bool) : AfterParams :=
  ⟨cfg.maxBatchSize, false, minRevision, takeKey⟩

/-- `AfterResult`。 -/
structure AfterResult where
  currentRevision : Int
  compactRevision : Int
  events : List Event
deriving DecidableEq

/-- `afterAll` が collector から作る結果。 -/
def AfterCollector.toResult (c : AfterCollector) : AfterResult :=
  { currentRevision :=
      match c.events.getLast? with
      | none => c.latestRev
      | some e => e.kv.modRevision
    compactRevision := c.compactRevision
    events := c.events }

/-- ほかの transaction が挟まらない `afterAll`。 -/
def afterAll (cfg : Config) (minRevision : Int) (takeKey : Key → Bool) (splits : Nat → Nat)
    (db : Db) : AfterResult × CallStatus :=
  let r := (processRange (AfterCollector.processor cfg (afterAllParams minRevision takeKey))
    (afterRange minRevision) splits (db.byRevision.entries.length + 1) 0
    (.start newAfterCollector) db).1
  (r.collector.toResult, r.status)

/-- `afterBatch`。 -/
def afterBatch (cfg : Config) (minRevision : Int) (takeKey : Key → Bool) (n : Nat) (db : Db) :
    Int × List Event × Except Err Unit :=
  match processBatch (AfterCollector.processor cfg (afterBatchParams cfg minRevision takeKey)) n
      newAfterCollector db (afterRange minRevision db none) with
  | (c, _, .error e) => (c.latestRev, c.events, .error e)
  | (c, _, .ok _) => (c.latestRev, c.events, .ok ())

/-! ## Watch の最初の読み出し -/

/-- `Watch` は NUL 一文字の prefix を `/` と読む。 -/
def watchPrefix (prefix_ : Key) : Key := if prefix_ = [0] then [0x2F] else prefix_

/-- `Watch` は `minRevision` の event も含めるために一つ前から読む。 -/
def watchMinRevision (minRevision : Int) : Int :=
  if 0 < minRevision then minRevision - 1 else minRevision

/-- `Watch` が forwarder を起動するまでに決めること。 -/
inductive WatchStart where
  /-- `CompactRevision` と `CurrentRevision` を入れて返す。 -/
  | compacted (compactRevision currentRevision : Int)
  /-- `ErrGRPCUnhealthy` を流して返す。 -/
  | unhealthy
  /-- 最初の event と `lastRevision` が決まる。 -/
  | started (events : List Event) (lastRevision : Int)
deriving DecidableEq

/-- `afterAll` の結果から `Watch` が決めること。`minRevision` は一つ前に直した値である。 -/
def watchStart (minRevision : Int) (result : AfterResult) (status : CallStatus) : WatchStart :=
  match status with
  | .failed .compacted => .compacted result.compactRevision result.currentRevision
  | .failed _ => .unhealthy
  | _ =>
    .started result.events
      (match result.events.getLast? with
      | none => minRevision
      | some e => e.kv.modRevision)

/-- ほかの transaction が挟まらない `Watch` の最初の読み出し。 -/
def watch (cfg : Config) (prefix_ : Key) (minRevision : Int) (splits : Nat → Nat) (db : Db) :
    WatchStart :=
  let result := afterAll cfg (watchMinRevision minRevision)
    (fun key => doesEventHavePrefix key (watchPrefix prefix_)) splits db
  watchStart (watchMinRevision minRevision) result.1 result.2

/-! ## 流れてくる event -/

/-- `innerWatch` が broadcaster の batch から残す event。 -/
def innerWatchEvents (prefix_ : Key) (events : List Event) : List Event :=
  events.filter (fun e => doesEventHavePrefix e.kv.key prefix_)

/-- forwarder が、最初の読み出しで送った event を先頭から飛ばす loop。 -/
def skipSent (lastRevision : Int) : List Event → List Event
  | [] => []
  | e :: events =>
    if e.kv.modRevision ≤ lastRevision then skipSent lastRevision events else e :: events

/-- channel に batch を流す。空の batch は流さない。 -/
def sendBatch (channel : List (List Event)) (events : List Event) : List (List Event) :=
  if events ≠ [] then channel ++ [events] else channel

/-! ## forwarder の loop -/

/-- `innerWatch`。`values` は broadcaster から届いて閉じられる batch の列で、`Subscribe` が失敗すれば
`none` である。そのとき返る channel は nil になる。 -/
def innerWatch (prefix_ : Key) (values : Option (List (List Event))) : Option (List (List Event)) :=
  values.map (fun batches =>
    batches.foldl (fun res events => sendBatch res (innerWatchEvents prefix_ events)) [])

/-- `Watch` の forwarder。`readChan` は、これから受け取って閉じられる batch の列である。nil の channel は
`none` で、何も受け取れない。 -/
structure Forwarder where
  lastRevision : Int
  readChan : Option (List (List Event))
  result : List (List Event)
  /-- loop を出て `Events` を閉じたか。 -/
  closed : Bool
deriving DecidableEq

/-- `Watch` が起動する forwarder。`afterAll` が失敗すれば起動しない。 -/
def openForwarder (minRevision : Int) (result : AfterResult) (status : CallStatus)
    (readChan : Option (List (List Event))) : Option Forwarder :=
  match watchStart minRevision result status with
  | .started events lastRevision => some ⟨lastRevision, readChan, sendBatch [] events, false⟩
  | _ => none

namespace Forwarder

/-- `readChan` の case。閉じた channel からは、いつでも nil の batch を受け取る。 -/
def receive (f : Forwarder) : Forwarder :=
  match f.readChan with
  | none => f
  | some [] => { f with result := sendBatch f.result (skipSent f.lastRevision []) }
  | some (events :: rest) =>
    { f with readChan := some rest, result := sendBatch f.result (skipSent f.lastRevision events) }

/-- `select` の一回。`done` は context が cancel されたこと、`pick` は両方の case が選べるときに
`readChan` を選ぶことをいう。nil の channel しかなければ待つ。 -/
def turn (f : Forwarder) (done pick : Bool) : Forwarder :=
  if f.closed then f
  else if done && (f.readChan.isNone || !pick) then { f with closed := true }
  else f.receive

/-- `select` を `n` 回終えた forwarder。`cancelAt` は context が cancel されるまでの回数である。 -/
def run (cancelAt : Option Nat) (picks : Nat → Bool) (f : Forwarder) : Nat → Forwarder
  | 0 => f
  | n + 1 => (f.run cancelAt picks n).turn (cancelAt.any (fun k => decide (k ≤ n))) (picks n)

end Forwarder

end KubeFdb
