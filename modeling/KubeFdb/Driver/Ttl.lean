import KubeFdb.Driver.Read
import KubeFdb.Driver.Watch

/-!
# lease の期限切れ

`fdb_ttl.go`。二つの goroutine が `ttlEventKVMap` を共有する。

* `ttl` の loop — `ttlEvents` の event を受け取り、鍵ごとに最新の revision と期限を覚え、queue に入れる
* `handleTTLEvents` — queue から鍵を取り、期限が過ぎていれば、覚えた revision で `Delete` を呼ぶ

時刻は nanosecond の整数で、`time.Time` は溢れないとする。`time.Duration` は int64 なので溢れる。
-/

namespace KubeFdb

open Tuple

/-- `time.Second`。 -/
def second : Int := 1000000000

/-- `retryInterval`。 -/
def retryInterval : Int := 250000000

structure TtlEventKV where
  key : Key
  modRevision : Int
  expiredAt : Int
deriving DecidableEq

/-- `ttlEventKVMap`。 -/
abbrev TtlStore := OrdMap Key TtlEventKV

/-- `time.Duration(lease) * time.Second`。int64 の積は溢れると折り返す。 -/
def leaseDuration (lease : Int) : Int := toInt64 (toUint64 (lease * second))

def loadTTLEventKV (store : TtlStore) (key : Key) : Option TtlEventKV := store.get? key

def storeTTLEventKV (now : Int) (store : TtlStore) (eventKV : KeyValue) : TtlStore × Int :=
  let expires := leaseDuration eventKV.lease
  (store.set eventKV.key ⟨eventKV.key, eventKV.modRevision, now + expires⟩, expires)

/-- `ttl` の loop が event を覚えるか。`eventKV` は先に読んだ値である。 -/
def needsStore (kv : KeyValue) : (eventKV : Option TtlEventKV) → Bool
  | none => true
  | some eventKV => decide (eventKV.modRevision < kv.modRevision)

/-- `deleteTTLEvent` の、`Delete` が返った後の部分。`failed` は `Delete` が error を返したか。
残った map と、`queue.AddAfter` の引数を返す。`curEventKV` が nil なら panic する。

期限を調べるのは `curEventKV` でなく `preEventKV` である。 -/
def finishTTLEvent (now : Int) (preEventKV : TtlEventKV) (failed : Bool) (store : TtlStore) :
    Option (TtlStore × Option (Key × Int)) :=
  match store.get? preEventKV.key with
  | none => none
  | some curEventKV =>
    let expires := preEventKV.expiredAt - now
    if 0 < expires then some (store, some (curEventKV.key, expires))
    else if failed then some (store, some (curEventKV.key, retryInterval))
    else some (store.filter (fun key => decide (key ≠ curEventKV.key)), none)

/-! ## ttlEvents -/

/-- 一頁の大きさ。 -/
def ttlPageSize : Nat := 1000

/-- 一頁の読み出しの終わり方。 -/
inductive PageOutcome where
  /-- FDB の error はない。 -/
  | read (splits : Nat → Nat)
  /-- FDB の error で終わり、collector にはそれまでの record が残った。 -/
  | failed (records : List RevRecord)

/-- `listWithCollector("/", startKey, maxRevision)` の後の、返った revision、error の有無、
`collector.records`。 -/
def ttlPage (cfg : Config) (db : Db) (startKey : Key) (maxRevision : Int) :
    PageOutcome → Int × Bool × List RevRecord
  | .failed records => (0, true, records)
  | .read splits =>
    match listRange [0x2F] startKey with
    | .error _ => (0, true, [])
    | .ok range =>
      let call := (processRange (RecordCollector.processor listProcessor cfg) (indexRange range) splits
        (db.byKeyAndRevision.entries.length + 1) 0
        (.start (newRecordCollector maxRevision (newListCollector ttlPageSize true))) db).1
      let records := call.collector.inner.records
      match listResult maxRevision call with
      | .ok (rev, _) => (rev, false, records)
      | .error .futureRev => (call.collector.firstRev, true, records)
      | .error _ => (0, true, records)

/-- lease を持つ record の event。 -/
def leasedEvents (cfg : Config) (records : List RevRecord) : List Event :=
  (records.filter (fun r => decide (0 < r.record.lease))).map (revRecordToEvent cfg)

/-- `ttlEvents` の goroutine の位置。`sent` は `result` に送った event である。 -/
inductive TtlEvents where
  /-- 一覧の途中。 -/
  | listing (sent : List Event)
  /-- 一覧が error で終わり、`result` を閉じた。 -/
  | closed (sent : List Event)
  /-- `Watch("/", rev)` を始める。 -/
  | watching (rev : Int) (sent : List Event)
deriving DecidableEq

/-- 頁の loop。`err` を調べるのは、`revRecords` が空でないときだけである。 -/
def ttlLoop (cfg : Config) (db : Db) (rev : Int) :
    (err : Bool) → (revRecords : List RevRecord) → (sent : List Event) → List PageOutcome → TtlEvents
  | _, [], sent, _ => .watching rev sent
  | true, _ :: _, sent, _ => .closed sent
  | false, r :: rs, sent, [] => .listing (sent ++ leasedEvents cfg (r :: rs))
  | false, r :: rs, sent, o :: os =>
    let page := ttlPage cfg db ((r :: rs).getLast (List.cons_ne_nil r rs)).key rev o
    ttlLoop cfg db rev page.2.1 page.2.2 (sent ++ leasedEvents cfg (r :: rs)) os

/-- `ttlEvents` の一覧。database は変わらず、頁の読み出しは順に `outcomes` のように終わる。 -/
def ttlEvents (cfg : Config) (db : Db) : (outcomes : List PageOutcome) → TtlEvents
  | [] => .listing []
  | o :: os =>
    let page := ttlPage cfg db [] 0 o
    ttlLoop cfg db page.1 page.2.1 page.2.2 [] os

/-! ## 期限の計算 -/

/-- 秒にして int64 の nanosecond に収まる最大の lease。 -/
def maxLease : Int := 9223372036

theorem toInt64_toUint64 {n : Int} (h0 : 0 ≤ n) (h : n < 2 ^ 63) : toInt64 (toUint64 n) = n := by
  unfold toInt64 toUint64
  rw [Int.emod_eq_of_lt h0 (by omega), if_pos (by omega), Int.toNat_of_nonneg h0]

theorem leaseDuration_of_le {lease : Int} (h0 : 0 < lease) (h : lease ≤ maxLease) :
    leaseDuration lease = lease * second := by
  unfold maxLease at h
  unfold leaseDuration second
  exact toInt64_toUint64 (by omega) (by omega)

end KubeFdb
