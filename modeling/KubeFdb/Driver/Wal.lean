import KubeFdb.Driver.Batch

/-!
# log の全体の読み出し

`fdb_wal.go`。`ReadWAL` は `byRevision` を始めから終わりまで読み、record をすべて返す。
-/

namespace KubeFdb

open Tuple

/-- `walCollector` の出力。 -/
structure WalCollector where
  batchEvents : List RevRecord
  records : List RevRecord
deriving DecidableEq

def newWalCollector : WalCollector := ⟨[], []⟩

/-- `walCollector.next`。 -/
def WalCollector.next (c : WalCollector) (tr : Db) (it : RevIterator) :
    WalCollector × Db × Except Err (RevIterator × Option RevKey × Bool) :=
  match ByRevision.getFromIterator it with
  | .error e => (c, tr, .error e)
  | .ok (none, it') => (c, tr, .ok (it', none, false))
  | .ok (some r, it') =>
    ({ c with batchEvents := c.batchEvents ++ [r] }, tr,
      .ok (it', some (chunkKey r.rev maxInt64), true))

/-- `walCollector` を `processRange` に渡す形。 -/
def WalCollector.processor : Processor WalCollector RevKey RevValue where
  startBatch c := { c with batchEvents := [] }
  next := WalCollector.next
  endBatch c tr _ := (c, tr, .ok ())
  postBatch c := { c with records := c.records ++ c.batchEvents }

/-- log 全体の範囲。 -/
def walRange : RangeOf RevKey RevValue := fun db begin_ => entriesAfter begin_ db.byRevision.entries

/-- ほかの transaction が挟まらない `ReadWAL`。 -/
def readWAL (splits : Nat → Nat) (db : Db) : Except Err (List RevRecord) :=
  let call := (processRange WalCollector.processor walRange splits
    (db.byRevision.entries.length + 1) 0 (.start newWalCollector) db).1
  match call.status with
  | .failed e => .error e
  | _ => .ok call.collector.records

end KubeFdb
