import KubeFdb.Driver.Record

/-!
# etcd の参照モデル

`test/robustness/model/deterministic.go`。request を一つずつ受け取って状態を進める、決定的な etcd である。
test は、driver の log をこのモデルで再生して、client の見た答えと比べる。

request と応答の型は etcd の robustness test のものである。値の表し方 `V`（`ValueOrHash`）には立ち入らない。
どの関数も読まない field（応答の header の一部と `Version` の計算）は持たない。
-/

namespace KubeFdb.Robustness

/-! ## request と応答 -/

structure ValueRevision (V : Type) where
  value : V
  modRevision : Int
  version : Int
deriving DecidableEq, Repr

structure RangeOptions where
  start : Key
  end_ : Key
  limit : Int
deriving DecidableEq, Repr

/-- `getRange` の panic。範囲を読むと、負の `limit` で slice を切る。 -/
def RangeOptions.panics (options : RangeOptions) : Bool :=
  decide (options.end_ ≠ []) && decide (options.limit < 0)

structure PutOptions (V : Type) where
  key : Key
  value : V
  leaseID : Int
deriving DecidableEq, Repr

/-- `EtcdOperation`。 -/
inductive Operation (V : Type) where
  | range (options : RangeOptions)
  | put (options : PutOptions V)
  | delete (key : Key)
deriving DecidableEq, Repr

def Operation.panics {V : Type} : Operation V → Bool
  | .range options => options.panics
  | _ => false

/-- `EtcdCondition`。 -/
structure Condition where
  key : Key
  expectedRevision : Int
  expectedVersion : Int
deriving DecidableEq, Repr

structure TxnRequest (V : Type) where
  conditions : List Condition
  operationsOnSuccess : List (Operation V)
  operationsOnFailure : List (Operation V)
deriving DecidableEq, Repr

/-- `EtcdRequest`。 -/
inductive Request (V : Type) where
  | range (options : RangeOptions) (revision : Int)
  | txn (request : TxnRequest V)
  | leaseGrant (leaseID : Int)
  | leaseRevoke (leaseID : Int)
  | defragment
  | compact (revision : Int)
deriving DecidableEq, Repr

structure RangeResponse (V : Type) where
  kvs : List (Key × ValueRevision V)
  count : Int
deriving DecidableEq, Repr

/-- `EtcdOperationResult`。 -/
structure OperationResult (V : Type) where
  rangeResponse : RangeResponse V
  deleted : Int
deriving DecidableEq, Repr

/-- 何も入れていない `EtcdOperationResult`。 -/
def OperationResult.zero {V : Type} : OperationResult V := ⟨⟨[], 0⟩, 0⟩

structure TxnResponse (V : Type) where
  failure : Bool
  results : List (OperationResult V)
deriving DecidableEq, Repr

inductive ModelErr where
  | futureRev
  | compacted
deriving DecidableEq, Repr

/-- `MaybeEtcdResponse`。`error` は応答のない error、`clientError` は client に返る error である。 -/
inductive Response (V : Type) where
  | range (response : RangeResponse V) (revision : Int)
  | txn (response : TxnResponse V) (revision : Int)
  | leaseGrant (revision : Int)
  | leaseRevoke (revision : Int)
  | defragment
  | compact
  | persisted (revision : Int)
  | clientError (e : ModelErr)
  | error (e : ModelErr)
deriving DecidableEq, Repr

/-! ## 状態 -/

/-- `EtcdLease`。鍵の集合は値のない写像で持つ。 -/
structure EtcdLease where
  leaseID : Int
  keys : OrdMap Key Unit
deriving DecidableEq

structure EtcdState (V : Type) where
  revision : Int
  compactRevision : Int
  keyValues : OrdMap Key (ValueRevision V)
  keyLeases : OrdMap Key Int
  leases : OrdMap Int EtcdLease

variable {V : Type}

/-- `freshEtcdState`。 -/
def freshEtcdState : EtcdState V := ⟨1, -1, .empty, .empty, .empty⟩

namespace EtcdState

variable (s : EtcdState V)

/-- panic しない `options` の `getRange`。 -/
def getRange (options : RangeOptions) : RangeResponse V :=
  if options.end_ ≠ [] then
    let kvs := s.keyValues.entries.filter
      (fun e => decide (options.start ≤ e.1) && decide (e.1 < options.end_))
    let count : Int := kvs.length
    ⟨if options.limit ≠ 0 ∧ options.limit < count then kvs.take options.limit.toNat else kvs, count⟩
  else
    match s.keyValues.get? options.start with
    | none => ⟨[], 0⟩
    | some value => ⟨[(options.start, value)], 1⟩

/-- `detachFromOldLease`。 -/
def detachFromOldLease (key : Key) : EtcdState V :=
  match s.keyLeases.get? key with
  | none => s
  | some oldLeaseID =>
    { s with
      leases := s.leases.mapValues (fun id lease =>
        if id = oldLeaseID then { lease with keys := lease.keys.filter (fun k => decide (k ≠ key)) }
        else lease)
      keyLeases := s.keyLeases.filter (fun k => decide (k ≠ key)) }

/-- `attachToNewLease`。 -/
def attachToNewLease (leaseID : Int) (key : Key) : EtcdState V :=
  { s with
    keyLeases := s.keyLeases.set key leaseID
    leases := s.leases.mapValues (fun id lease =>
      if id = leaseID then { lease with keys := lease.keys.set key () } else lease) }

/-- `stepTxn` の条件一つ。ない鍵の `ModRevision` と `Version` は 0 である。 -/
def holds (cond : Condition) : Bool :=
  let val := s.keyValues.get? cond.key
  if 0 < cond.expectedVersion then
    decide ((val.map ValueRevision.version).getD 0 = cond.expectedVersion)
  else decide ((val.map ValueRevision.modRevision).getD 0 = cond.expectedRevision)

/-- `stepTxn` の操作一つ。最後の成分は revision を進めるかどうかである。 -/
def applyOperation : Operation V → EtcdState V × OperationResult V × Bool
  | .range options => (s, ⟨s.getRange options, 0⟩, false)
  | .put options =>
    let leaseExists := (s.leases.get? options.leaseID).isSome
    if options.leaseID ≠ 0 ∧ leaseExists = false then (s, .zero, false)
    else
      let put : EtcdState V :=
        { s with keyValues := s.keyValues.set options.key ⟨options.value, s.revision + 1, 0⟩ }
      let detached := put.detachFromOldLease options.key
      (if leaseExists then detached.attachToNewLease options.leaseID options.key else detached,
        .zero, true)
  | .delete key =>
    if (s.keyValues.get? key).isSome then
      let deleted : EtcdState V :=
        { s with keyValues := s.keyValues.filter (fun k => decide (k ≠ key)) }
      (deleted.detachFromOldLease key, { OperationResult.zero with deleted := 1 }, true)
    else (s, .zero, false)

/-- 操作を順に行う。 -/
def applyOperations (s : EtcdState V) :
    List (Operation V) → EtcdState V × List (OperationResult V) × Bool
  | [] => (s, [], false)
  | op :: ops =>
    let first := s.applyOperation op
    let rest := applyOperations first.1 ops
    (rest.1, first.2.1 :: rest.2.1, first.2.2 || rest.2.2)

/-- `stepTxn`。 -/
def stepTxn (request : TxnRequest V) : EtcdState V × Response V :=
  let failure := request.conditions.any (fun cond => !s.holds cond)
  let operations := if failure then request.operationsOnFailure else request.operationsOnSuccess
  let applied := s.applyOperations operations
  let newState :=
    if applied.2.2 then { applied.1 with revision := applied.1.revision + 1 } else applied.1
  (newState, .txn ⟨failure, applied.2.1⟩ newState.revision)

/-- `stepRange`。 -/
def stepRange (options : RangeOptions) (revision : Int) : EtcdState V × Response V :=
  if revision = 0 ∨ revision = s.revision then (s, .range (s.getRange options) s.revision)
  else if s.revision < revision then (s, .error .futureRev)
  else if revision < s.compactRevision then (s, .clientError .compacted)
  else (s, .persisted s.revision)

/-- `stepLeaseGrant`。 -/
def stepLeaseGrant (leaseID : Int) : EtcdState V × Response V :=
  if leaseID = 0 then (s, .leaseGrant s.revision)
  else ({ s with leases := s.leases.set leaseID ⟨leaseID, .empty⟩ }, .leaseGrant s.revision)

/-- lease に付いている、値のある鍵。 -/
def leasedKeys (leaseID : Int) : List Key :=
  match s.leases.get? leaseID with
  | none => []
  | some lease =>
    (lease.keys.entries.map Prod.fst).filter (fun key => (s.keyValues.get? key).isSome)

/-- `stepLeaseRevoke`。 -/
def stepLeaseRevoke (leaseID : Int) : EtcdState V × Response V :=
  let deleted := s.leasedKeys leaseID
  let newState : EtcdState V :=
    { s with
      keyValues := s.keyValues.filter (fun k => !deleted.contains k)
      keyLeases := s.keyLeases.filter (fun k => !deleted.contains k)
      leases := s.leases.filter (fun id => decide (id ≠ leaseID))
      revision := if deleted = [] then s.revision else s.revision + 1 }
  (newState, .leaseRevoke newState.revision)

/-- `stepCompact`。 -/
def stepCompact (revision : Int) : EtcdState V × Response V :=
  if revision ≤ s.compactRevision then (s, .clientError .compacted)
  else if s.revision < revision then (s, .clientError .futureRev)
  else ({ s with compactRevision := revision }, .compact)

/-- panic しない request の `EtcdState.Step`。 -/
def step : Request V → EtcdState V × Response V
  | .range options revision => s.stepRange options revision
  | .txn request => s.stepTxn request
  | .leaseGrant leaseID => s.stepLeaseGrant leaseID
  | .leaseRevoke leaseID => s.stepLeaseRevoke leaseID
  | .defragment => (s, .defragment)
  | .compact revision => s.stepCompact revision

/-- `EtcdState.Step` の panic。古い revision の読み出しと、行わない枝の操作は、範囲を読まない。 -/
def panics : Request V → Bool
  | .range options revision => decide (revision = 0 ∨ revision = s.revision) && options.panics
  | .txn request =>
    let failure := request.conditions.any (fun cond => !s.holds cond)
    (if failure then request.operationsOnFailure else request.operationsOnSuccess).any
      Operation.panics
  | _ => false

end EtcdState

end KubeFdb.Robustness
