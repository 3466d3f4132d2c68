import KubeFdb.Driver.Count
import KubeFdb.Driver.Read

/-!
# poll の loop

`fdb_watch.go` の `startWatch` と `poll`。loop は、log の新しい record を一度に `maxBatchSize` まで読み、
tracker に反映し、channel `result` に渡し、cursor `lastWatchRev` を進める。この四つは別々に起こり、
その間にほかの transaction や `Count` が挟まる。loop の位置を `PollPc` で持つ。

FDB の watch、timer、`pollKick` は、いつ loop が次に回るかだけを決めるので、どの手もいつ起きてもよい
とする。

`fdb_read.go` の `Count` も、tracker と cursor を loop と共有するので、ここに置く。tracker を見る、走査する、
tracker に入れる、は別々に起こる。
-/

namespace KubeFdb

open Tuple

/-- loop の位置。 -/
inductive PollPc where
  /-- loop は走っていない。channel は閉じている。 -/
  | stopped
  /-- `startWatch` が `pollStart` を決め、goroutine はまだ始まっていない。 -/
  | starting (pollStart : Int)
  /-- loop の先頭。 -/
  | top
  /-- `afterBatch` が返った。 -/
  | fetched (lastRev : Int) (events : List Event)
  /-- `counts.apply` が終わった。 -/
  | applied (events : List Event)
  /-- `result` に渡した。 -/
  | handed (events : List Event)
deriving DecidableEq

structure Poll where
  pc : PollPc
  lastWatchRev : Int
  counts : CountTracker
  /-- これまでに `result` に渡した event の列。 -/
  sent : List (List Event)
deriving DecidableEq

def Poll.init : Poll := ⟨.stopped, 0, .empty, []⟩

/-- `pollActive`。 -/
def Poll.active (p : Poll) : Bool :=
  match p.pc with
  | .stopped => false
  | .starting _ => false
  | _ => true

/-- `FDB.CurrentRevision`。 -/
def currentRevision (cfg : Config) (lastWatchRev : Int) (db : Db) : Int :=
  if lastWatchRev ≠ 0 then lastWatchRev else db.getLatestRev cfg

inductive PollLabel where
  /-- `startWatch`。 -/
  | connect
  /-- goroutine が始まる。 -/
  | begin_
  /-- `afterBatch` の transaction。 -/
  | read (n : Nat)
  /-- watch の登録か `afterBatch` が失敗し、間を置いてやり直す。 -/
  | fail
  | apply
  | hand
  | advance
  /-- `ctx` が終わり、loop を抜けて channel を閉じる。 -/
  | stop
deriving DecidableEq

/-- 最後の event の revision。 -/
def lastModRevision (events : List Event) (rev : Int) : Int :=
  match events.getLast? with
  | none => rev
  | some e => e.kv.modRevision

/-- loop の一手。`db` はその時点の database である。 -/
def Poll.step (cfg : Config) (db : Db) (p : Poll) : PollLabel → Option Poll
  | .connect =>
    if p.pc = .stopped then some { p with pc := .starting (currentRevision cfg p.lastWatchRev db) }
    else none
  | .begin_ =>
    match p.pc with
    | .starting pollStart =>
      some { p with pc := .top, lastWatchRev := pollStart, counts := .empty }
    | _ => none
  | .read n =>
    if p.pc = .top then
      match afterBatch cfg p.lastWatchRev (fun _ => true) n db with
      | (_, _, .error _) => some p
      | (lastRev, events, .ok ()) => some { p with pc := .fetched lastRev events }
    else none
  | .fail => if p.pc = .top then some p else none
  | .apply =>
    match p.pc with
    | .fetched _ events =>
      if events ≠ [] then some { p with pc := .applied events, counts := p.counts.apply events }
      else none
    | _ => none
  | .hand =>
    match p.pc with
    | .applied events => some { p with pc := .handed events, sent := p.sent ++ [events] }
    | _ => none
  | .advance =>
    match p.pc with
    | .fetched lastRev [] => some { p with pc := .top, lastWatchRev := lastRev }
    | .handed events =>
      some { p with pc := .top, lastWatchRev := lastModRevision events p.lastWatchRev }
    | _ => none
  | .stop => if p.pc = .top then some { p with pc := .stopped } else none

/-! ## Count -/

/-- 走査を始めた `Count`。 -/
structure CountCall where
  prefix_ : Key
  revision : Int
  cacheable : Bool
  range : Bytes × Bytes
  scan : ListCall CountCollector

/-- `Count` の走査の前の部分の結果。 -/
inductive CountStart where
  | cached (rev count : Int)
  | failed (e : Err)
  | scanning (c : CountCall)

/-- tracker にある数。cursor が `seedRev` に届くまでは使わない。 -/
def Poll.cachedCount (p : Poll) (prefix_ : Key) : Option (Int × Int) :=
  match p.counts.get? prefix_ with
  | some e => if e.seedRev ≤ p.lastWatchRev then some (p.lastWatchRev, e.count) else none
  | none => none

/-- `Count` の走査の前の部分。 -/
def Poll.startCount (p : Poll) (prefix_ startKey : Key) (revision : Int) : CountStart :=
  let cacheable := decide (revision = 0) && decide (prefix_ = startKey) && p.active
  match (if cacheable then p.cachedCount prefix_ else none) with
  | some (rev, count) => .cached rev count
  | none =>
    match listRange prefix_ startKey with
    | .error e => .failed e
    | .ok range =>
      .scanning ⟨prefix_, revision, cacheable, range, .start (newRecordCollector revision ⟨0, 0⟩)⟩

/-- `Count` の走査の batch 一つ。 -/
def CountCall.batch (cfg : Config) (n : Nat) (db : Db) (c : CountCall) : CountCall :=
  { c with
    scan := (c.scan.batch (RecordCollector.processor countProcessor cfg) (indexRange c.range) n db).1 }

/-- `Count` の走査の後の部分。tracker に入れて、結果を返す。 -/
def CountCall.finish (c : CountCall) (counts : CountTracker) :
    Except Err (Int × Int) × CountTracker :=
  match listResult c.revision c.scan with
  | .error e => (.error e, counts)
  | .ok (rev, collector) =>
    (.ok (rev, collector.totalCount),
      if c.cacheable then counts.seed c.prefix_ collector.totalCount rev else counts)

end KubeFdb
