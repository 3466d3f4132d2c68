import KubeFdb.Driver.Batch

/-!
# compaction

`fdb_compact.go`。`byRevision` を古い方から `endRev` まで読み、鍵の最新でない record と
tombstone を両方の subspace から消す。watermark には batch が最後に読んだ revision を書く。

`Compact` は `UseSequentialId` のときは何もしない。
-/

namespace KubeFdb

/-- `compactProcessor`。 -/
structure CompactProcessor where
  batchCompacted : Versionstamp
deriving DecidableEq

def newCompactProcessor : CompactProcessor := ⟨int64ToVersionstamp 0⟩

namespace CompactProcessor

/-- `compactProcessor.next`。 -/
def next (c : CompactProcessor) (tr : Db) (it : RevIterator) :
    CompactProcessor × Db × Except Err (RevIterator × Option RevKey × Bool) :=
  match ByRevision.getFromIterator it with
  | .error e => (c, tr, .error e)
  | .ok (none, it') => (c, tr, .ok (it', none, false))
  | .ok (some r, it') =>
    match tr.getLast r.key with
    | none => (c, tr, .error .nilDereference)
    | some last =>
      let tr' :=
        if last.rev ≠ r.rev ∨ r.record.isDelete then
          { tr with
            byKeyAndRevision := ByKeyAndRevision.delete tr.byKeyAndRevision r.key r.rev
            byRevision := ByRevision.delete tr.byRevision r.rev }
        else tr
      (⟨r.rev⟩, tr', .ok (it', some (chunkKey r.rev maxInt64), true))

/-- `compactProcessor.endBatch`。 -/
def endBatch (c : CompactProcessor) (tr : Db) (_isLast : Bool) :
    CompactProcessor × Db × Except Err Unit :=
  (c, if c.batchCompacted ≠ dummyVersionstamp then { tr with compactRev := some c.batchCompacted }
    else tr, .ok ())

def processor : Processor CompactProcessor RevKey RevValue where
  startBatch _ := ⟨dummyVersionstamp⟩
  next := next
  endBatch := endBatch
  postBatch c := c

end CompactProcessor

/-- `Compact` の範囲。終わりは `endRev` の header の次の鍵なので、header は入り chunk は入らない。 -/
def compactRange (endRev : Int) : RangeOf RevKey RevValue := fun db begin_ =>
  entriesAfter begin_
    (db.byRevision.entries.filter
      (fun e => decide (e.1 ≤ headerKey (int64ToVersionstamp endRev))))

abbrev CompactCall := RangeCall CompactProcessor RevKey

def startCompact : CompactCall := .start newCompactProcessor

/-- ほかの transaction が挟まらない `Compact`。batch は読んだ entry の数より多くならない。 -/
def compact (cfg : Config) (endRev : Int) (splits : Nat → Nat) (db : Db) : CallStatus × Db :=
  if cfg.useSequentialId then (.done, db)
  else
    let r := processRange CompactProcessor.processor (compactRange endRev) splits
      (db.byRevision.entries.length + 1) 0 startCompact db
    (r.1.status, r.2)

end KubeFdb
