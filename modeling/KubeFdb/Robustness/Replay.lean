import KubeFdb.Driver.Wal
import KubeFdb.Robustness.Model

/-!
# log の再生

`test/robustness/fdb/wal.go` は driver の log の record を etcd の request に直し、
`test/robustness/model/replay.go` はそれを参照モデルで再生する。再生は、revision ごとの状態と、
watch に流れるはずの event を残す。
-/

namespace KubeFdb.Robustness

open Tuple

variable {V : Type}

/-! ## 再生 -/

inductive EventType where
  | put
  | delete
deriving DecidableEq, Repr

/-- `PersistedEvent`。削除の event に値はない。 -/
structure PersistedEvent (V : Type) where
  type : EventType
  key : Key
  value : Option V
  revision : Int
  isCreate : Bool
deriving DecidableEq, Repr

/-- `toWatchEvents` の、操作一つの event。 -/
def operationEvent (prevState : EtcdState V) (revision : Int) :
    Operation V → OperationResult V → Option (PersistedEvent V)
  | .range _, _ => none
  | .delete key, result =>
    if result.deleted ≠ 0 then some ⟨.delete, key, none, revision, false⟩ else none
  | .put options, _ =>
    if options.leaseID ≠ 0 ∧ (prevState.leases.get? options.leaseID).isSome = false then none
    else
      some ⟨.put, options.key, some options.value, revision,
        (prevState.keyValues.get? options.key).isNone⟩

/-- `toWatchEvents`。 -/
def toWatchEvents (prevState : EtcdState V) : Request V → Response V → List (PersistedEvent V)
  | .txn request, .txn response revision =>
    let ops :=
      if response.failure then request.operationsOnFailure else request.operationsOnSuccess
    (ops.zip response.results).filterMap (fun x => operationEvent prevState revision x.1 x.2)
  | .leaseRevoke leaseID, .leaseRevoke revision =>
    (prevState.leasedKeys leaseID).map (fun key => ⟨.delete, key, none, revision, false⟩)
  | _, _ => []

/-- `EtcdReplay`。 -/
structure EtcdReplay (V : Type) where
  revisionToEtcdState : List (EtcdState V)
  events : List (PersistedEvent V)

/-- `NewReplay` の loop 一回分。 -/
def replayStep (acc : EtcdState V × EtcdReplay V) (request : Request V) :
    EtcdState V × EtcdReplay V :=
  let stepped := acc.1.step request
  (stepped.1,
    { revisionToEtcdState :=
        if acc.1.revision ≠ stepped.1.revision then acc.2.revisionToEtcdState ++ [stepped.1]
        else acc.2.revisionToEtcdState
      events := acc.2.events ++ toWatchEvents acc.1 request stepped.2 })

/-- `NewReplay` の loop。 -/
def replayLoop (requests : List (Request V)) : EtcdState V × EtcdReplay V :=
  requests.foldl replayStep (freshEtcdState, ⟨[freshEtcdState, freshEtcdState], []⟩)

/-- panic しない log の再生。 -/
def newReplay (requests : List (Request V)) : EtcdReplay V := (replayLoop requests).2

/-- 再生の途中の `Step` の panic。 -/
def EtcdState.replayPanics : EtcdState V → List (Request V) → Bool
  | _, [] => false
  | s, request :: requests => s.panics request || (s.step request).1.replayPanics requests

/-- `NewReplay`。 -/
def newReplay? (requests : List (Request V)) : Option (EtcdReplay V) :=
  if (freshEtcdState : EtcdState V).replayPanics requests then none else some (newReplay requests)

inductive ReplayErr where
  /-- 再生した revision より新しい。 -/
  | notObserved
  /-- 負の添字の panic。 -/
  | indexOutOfRange
deriving DecidableEq, Repr

/-- `StateForRevision`。 -/
def EtcdReplay.stateForRevision (r : EtcdReplay V) (revision : Int) : Except ReplayErr (EtcdState V) :=
  if revision < 0 then .error .indexOutOfRange
  else
    match r.revisionToEtcdState[revision.toNat]? with
    | none => .error .notObserved
    | some state => .ok state

/-! ## log から request へ -/

section

variable (toValueOrHash : Bytes → V)

/-- `wal.go` の `Create`。 -/
def create (key : Key) (value : Bytes) : Request V :=
  .txn
    { conditions := [⟨key, 0, 0⟩]
      operationsOnSuccess := [.put ⟨key, toValueOrHash value, 0⟩]
      operationsOnFailure := [] }

/-- `wal.go` の `Update`。 -/
def update (key : Key) (value : Bytes) (prevRevision : Int) : Request V :=
  .txn
    { conditions := [⟨key, prevRevision, 0⟩]
      operationsOnSuccess := [.put ⟨key, toValueOrHash value, 0⟩]
      operationsOnFailure := [.range ⟨key, [], 0⟩] }

/-- `wal.go` の `Delete`。 -/
def delete (key : Key) (prevRev : Int) : Request V :=
  if prevRev ≠ 0 then
    .txn
      { conditions := [⟨key, prevRev, 0⟩]
        operationsOnSuccess := [.delete key]
        operationsOnFailure := [.range ⟨key, [], 0⟩] }
  else
    .txn
      { conditions := []
        operationsOnSuccess := [.range ⟨key, [], 0⟩, .delete key]
        operationsOnFailure := [] }

/-- record 一つの request。 -/
def requestOf (r : RevRecord) : Request V :=
  if r.record.isCreate then create toValueOrHash r.record.key r.record.value
  else if r.record.isDelete then
    delete r.record.key (versionstampToInt64 r.record.prevRevision)
  else update toValueOrHash r.record.key r.record.value (versionstampToInt64 r.record.prevRevision)

/-- `WALToEtcdRequests`。 -/
def walToEtcdRequests (splits : Nat → Nat) (db : Db) : Except Err (List (Request V)) :=
  (readWAL splits db).map (List.map (requestOf toValueOrHash))

end

end KubeFdb.Robustness
