import KubeFdb.Driver.Subspace

/-!
# 書き込み

`fdb_write.go`。`Create`、`Update`、`Delete` の transaction の中身を、commit version `v` と
新しい UUID を受け取る関数として書く。結果の database は、その transaction が commit した
ときのものである。

`TxOut.appended` は `append` が書いた record で、その UUID が呼び出し側の `lastWriteUUID` になる。
-/

namespace KubeFdb

open Tuple

/-- `writeResult`。future の値は commit の後に決まるが、ここでは `rev` に持つ。 -/
structure WriteResult where
  rev : Int
  isKey : Bool
  revRecord : Option RevRecord
  writeSuccess : Bool
deriving DecidableEq

/-- `newModificationResultKey`。revision は commit した versionstamp から取る。 -/
def newModificationResultKey (rev : Versionstamp) (revRecord : Option RevRecord)
    (writeSuccess : Bool) : WriteResult :=
  ⟨versionstampToInt64 rev, true, revRecord, writeSuccess⟩

/-- `newModificationResultRev`。 -/
def newModificationResultRev (rev : Int) (revRecord : Option RevRecord)
    (writeSuccess : Bool) : WriteResult :=
  ⟨rev, false, revRecord, writeSuccess⟩

/-- `writeResult.getResult`。 -/
def WriteResult.getResult (cfg : Config) (r : WriteResult) : Int × Option KeyValue × Bool :=
  let kv := r.revRecord.map (fun rr =>
    let kv := (revRecordToEvent cfg rr).kv
    if r.isKey then { kv with modRevision := r.rev } else kv)
  (r.rev, kv, r.writeSuccess)

structure TxOut where
  result : WriteResult
  appended : Option RevRecord
  db : Db
deriving DecidableEq

/-- 書き込みをしなかった transaction の結果。 -/
def TxOut.readOnly (result : WriteResult) (db : Db) : TxOut := ⟨result, none, db⟩

/-- `FDB.append`。書いた record とその後の database を返す。 -/
def append (cfg : Config) (v : Nat) (uuid : UUID) (record : Record) (prevValueSize : Int)
    (db : Db) : RevRecord × Db :=
  let record := { record with writeUUID := uuid }
  let (newRev, db) := db.incrementAndGet cfg v
  let db := { db with byRevision := ByRevision.write db.byRevision newRev record }
  let db := { db with
    byKeyAndRevision := ByKeyAndRevision.write db.byKeyAndRevision record.key newRev record }
  let db :=
    if record.isDelete then
      { db with byKeyCurrent := ByKeyCurrent.clear db.byKeyCurrent record.key }
    else
      { db with
        byKeyCurrent :=
          ByKeyCurrent.replace db.byKeyCurrent record.key record.value prevValueSize }
  (⟨newRev, record⟩, { db with watch := db.watch + 1 })

/-- `Create` の transaction。 -/
def createTx (cfg : Config) (key : Key) (value : Bytes) (lease : Int) (lastWriteUUID uuid : UUID)
    (v : Nat) (db : Db) : Except Err TxOut :=
  let createRecord : Record :=
    { key := key, isCreate := true, isDelete := false, lease := lease
      valueSize := value.length, value := value, createRevision := dummyVersionstamp
      prevRevision := dummyVersionstamp, writeUUID := 0, latestForKey := false }
  let write (record : Record) : Except Err TxOut :=
    let (written, db') := append cfg v uuid record 0 db
    .ok ⟨newModificationResultKey written.rev none true, some written, db'⟩
  match db.getLast key with
  | none => write createRecord
  | some last =>
    if last.record.isCreate ∧ lastWriteUUID = last.record.writeUUID then
      .ok (.readOnly (newModificationResultRev (versionstampToInt64 last.rev) none true) db)
    else if !last.record.isDelete then .error .keyExists
    else write { createRecord with prevRevision := last.rev }

/-- `Update` の transaction。 -/
def updateTx (cfg : Config) (key : Key) (value : Bytes) (revision lease : Int)
    (lastWriteUUID uuid : UUID) (v : Nat) (db : Db) : Except Err TxOut :=
  match db.getLast key with
  | none => .ok (.readOnly (newModificationResultRev (db.getLatestRev cfg) none false) db)
  | some last =>
    if last.record.isDelete then
      .ok (.readOnly (newModificationResultRev (db.getLatestRev cfg) none false) db)
    else if versionstampToInt64 last.rev ≠ revision then
      match ByRevision.get db.byRevision last.rev with
      | .error e => .error e
      | .ok none => .error .nilDereference
      | .ok (some record) =>
        if lastWriteUUID = last.record.writeUUID then
          .ok (.readOnly
            (newModificationResultRev (versionstampToInt64 last.rev) (some ⟨last.rev, record⟩) true)
            db)
        else
          .ok (.readOnly
            (newModificationResultRev (db.getLatestRev cfg) (some ⟨last.rev, record⟩) false) db)
    else
      let updateRecord : Record :=
        { key := key, isCreate := false, isDelete := false, lease := lease
          valueSize := value.length, value := value, createRevision := last.getCreateRevision
          prevRevision := last.rev, writeUUID := 0, latestForKey := false }
      let (written, db') := append cfg v uuid updateRecord last.record.valueSize db
      .ok ⟨newModificationResultKey written.rev
        (some ⟨int64ToVersionstamp 0, written.record⟩) true, some written, db'⟩

/-- `Delete` の transaction。索引にある revision の record が log になければ nil を参照する。 -/
def deleteTx (cfg : Config) (key : Key) (revision : Int) (lastWriteUUID uuid : UUID) (v : Nat)
    (db : Db) : Except Err TxOut :=
  match db.getLast key with
  | none => .ok (.readOnly (newModificationResultRev (db.getLatestRev cfg) none false) db)
  | some last =>
    match ByRevision.get db.byRevision last.rev with
    | .error e => .error e
    | .ok record =>
      if last.record.isDelete then
        if lastWriteUUID = last.record.writeUUID then
          match record with
          | none => .error .nilDereference
          | some record =>
            .ok (.readOnly
              (newModificationResultRev (versionstampToInt64 last.rev)
                (some ⟨last.rev, record⟩) true) db)
        else .ok (.readOnly (newModificationResultRev (db.getLatestRev cfg) none false) db)
      else
        match record with
        | none => .error .nilDereference
        | some record =>
          if revision ≠ 0 ∧ versionstampToInt64 last.rev ≠ revision then
            .ok (.readOnly
              (newModificationResultRev (db.getLatestRev cfg) (some ⟨last.rev, record⟩) false) db)
          else
            let deleteRecord : Record :=
              { key := key, isCreate := false, isDelete := true, lease := record.lease
                valueSize := record.valueSize, value := record.value
                createRevision := last.getCreateRevision, prevRevision := last.rev
                writeUUID := 0, latestForKey := false }
            let (written, db') := append cfg v uuid deleteRecord 0 db
            .ok ⟨newModificationResultKey written.rev
              (some ⟨int64ToVersionstamp 0, written.record⟩) true, some written, db'⟩

/-! ## 一つの呼び出しとしての書き込み -/

inductive WriteOp where
  | create (key : Key) (value : Bytes) (lease : Int)
  | update (key : Key) (value : Bytes) (revision lease : Int)
  | delete (key : Key) (revision : Int)
deriving DecidableEq, Repr

namespace WriteOp

def key : WriteOp → Key
  | create key _ _ => key
  | update key _ _ _ => key
  | delete key _ => key

/-- `Create` と `Update` が transaction の前に調べる大きさ。超えれば `ErrRequestTooLarge` になる。 -/
def tooLarge : WriteOp → Bool
  | create _ value _ => decide (maxRecordSize < value.length)
  | update _ value _ _ => decide (maxRecordSize < value.length)
  | delete _ _ => false

/-- 一回の試行。 -/
def tx (cfg : Config) (op : WriteOp) (lastWriteUUID uuid : UUID) (v : Nat) (db : Db) :
    Except Err TxOut :=
  if op.tooLarge then .error .requestTooLarge
  else
    match op with
    | create key value lease => createTx cfg key value lease lastWriteUUID uuid v db
    | update key value revision lease =>
      updateTx cfg key value revision lease lastWriteUUID uuid v db
    | delete key revision => deleteTx cfg key revision lastWriteUUID uuid v db

end WriteOp

end KubeFdb
